import NgxPlus.Lib.KeyedMap
import NgxPlus.Lib.Trace
import NgxPlus.Mqtt.Puback

/-!
# Messages in flight

Clients get messages with QoS and acknowledge them. The ghost state is `Flight`: the messages sent
and not acknowledged, by client and client's message id, and the id last sent for a topic. The
outstanding dictionary holds it under `clientId/id` and `clientId/topic` (`entries`, `key`).

`AckLaw` is what an acknowledgement does in a state. `acks_exact_iff`: it holds in every state of a
run, exactly when every message goes out under the publisher's own id, no two names in use are
written alike, and no offset goes out or is acknowledged behind another of its topic (`StepOk`).
`parse_message_puback` deletes the entry of `message_id`, which is the publisher's
(`mqtt_server_module.lua:502`); a client's first message has the id 1 (`other_id_deleted`).
-/

namespace NgxPlus.Mqtt

open ByteMem KeyedMap Trace
open NgxPlus.Diversion (utf8Bytes)

/-! ## Sending -/

/-- A message with QoS, not expired, to a subscription with QoS. -/
structure Send (L : Libs) where
  clientId : ClientId
  recvTime : Int
  stamp : Int
  sQos : Nat
  message : Envelope
  b0 : UInt8
  b1 : UInt8
  app : Bytes
  sQos_pos : sQos > 0
  qos_pos : message.qos > 0
  fresh : ¬ (message.timestamp L > 0 ∧ message.timestamp L < recvTime)
  rest_eq : message.rest = b0 :: b1 :: app
  app_length : 4 ≤ app.length

theorem toInt32_range (n : Int) : -2 ^ 31 ≤ toInt32 n ∧ toInt32 n < 2 ^ 31 := by
  rw [toInt32]
  omega

namespace Send

variable {L : Libs} (x : Send L)

def offset : Int := (readUint32 x.app).getD 0

theorem readUint32_app : readUint32 x.app = some x.offset := by
  have hlen := x.app_length
  rw [offset]
  cases h : readUint32 x.app with
  | none =>
    have := readUint32_eq_none.1 h
    omega
  | some o => rfl

theorem offset_range : -2 ^ 31 ≤ x.offset ∧ x.offset < 2 ^ 31 := by
  have h := x.readUint32_app
  match happ : x.app with
  | [] | [_] | [_, _] | [_, _, _] =>
    rw [happ] at h
    cases h
  | s0 :: s1 :: s2 :: s3 :: _ =>
    rw [happ, readUint32] at h
    rw [← Option.some.inj h]
    exact toInt32_range _

def sent : Sent where
  pMsgId := x.b0.toNat * 256 + x.b1.toNat
  offset := x.offset
  timestamp := ceilSeconds x.stamp
  srcCid := x.message.srcCid
  topic := x.message.topic
  pMsgId_lt := by
    have := x.b0.toNat_lt
    have := x.b1.toNat_lt
    omega
  offset_ge := x.offset_range.1
  offset_lt := x.offset_range.2
  srcCid_length := x.message.srcCid_length
  topic_length := x.message.topic_length

/-- The id that the client gets the message under. -/
def cMsgId (d : Dicts) : Nat := nextMsgId (d.sequence x.clientId.1)

/-- What the call stores. -/
theorem processQueueFor_fst (d : Dicts) :
    (processQueueFor L x.recvTime x.stamp x.clientId.1 x.sQos x.message.bytes d).1.outstanding =
      (((d.setOutstanding x.clientId.1 x.sent.topic (some (.msgId (x.cMsgId d)))).setOutstanding x.clientId.1
        (decimal (x.cMsgId d)) (some (.cacheVal x.sent.cacheVal)))).outstanding := by
  have hrest : (x.message.opened L).rest = x.b0 :: x.b1 :: x.app := x.rest_eq
  rw [x.message.processQueueFor_eq x.fresh, if_pos x.qos_pos, sendQos]
  simp only [hrest, x.readUint32_app, if_pos x.sQos_pos]
  rfl

end Send

/-- Without an offset to read nothing is stored. -/
theorem outstanding_sendQos_short {stamp : Int} {clientId : Bytes} {sQos : Nat} {qos : UInt8} {o : Opened} (d : Dicts)
    (h : o.rest.length < 6) : (sendQos stamp clientId sQos qos o d).1.outstanding = d.outstanding := by
  rw [sendQos]
  rcases hr : o.rest with _ | ⟨b0, _ | ⟨b1, app⟩⟩
  · rfl
  · rfl
  · have hshort : readUint32 app = none := readUint32_eq_none.2 (by rw [hr] at h; simp at h; omega)
    simp only [hshort]
    split <;> rfl

/-! ## Names in use -/

inductive Name
  | msgId (n : Nat)
  | topic (t : Bytes)
deriving DecidableEq, Repr

/-- How a client's name is written. -/
def key : ClientId × Name → Bytes
  | (clientId, .msgId n) => outstandingKey clientId.1 (decimal n)
  | (clientId, .topic t) => outstandingKey clientId.1 t

structure Flight where
  sent : ClientId → Nat → Option Sent
  latest : ClientId → Bytes → Option Nat

def Flight.empty : Flight := ⟨fun _ _ => none, fun _ _ => none⟩

def entries (f : Flight) : ClientId × Name → Option Outstanding
  | (clientId, .msgId n) => (f.sent clientId n).map fun m => .cacheVal m.cacheVal
  | (clientId, .topic t) => (f.latest clientId t).map .msgId

def Flight.send (f : Flight) (clientId : ClientId) (c : Nat) (m : Sent) : Flight :=
  ⟨Function.update f.sent clientId (Function.update (f.sent clientId) c (some m)),
    Function.update f.latest clientId (Function.update (f.latest clientId) m.topic (some c))⟩

/-- Without message `c`, and without what its topic has in flight. -/
def Flight.ack (f : Flight) (clientId : ClientId) (c : Nat) (m : Sent) : Flight :=
  ⟨Function.update f.sent clientId (Function.update (f.sent clientId) c none),
    Function.update f.latest clientId (Function.update (f.latest clientId) m.topic none)⟩

/-- A name has an entry, or is the topic of a message in flight. -/
def InUse (f : Flight) (x : ClientId × Name) : Prop :=
  entries f x ≠ none ∨ ∃ clientId c m, f.sent clientId c = some m ∧ x = (clientId, .topic m.topic)

/-- No two names in use are written alike. -/
def KeysDistinct (f : Flight) : Prop := ∀ x y, InUse f x → InUse f y → key x = key y → x = y

theorem entries_empty : entries .empty = fun _ => none := by
  funext ⟨clientId, n⟩
  cases n with
  | msgId n => rfl
  | topic t => rfl

theorem update_update_apply {α β γ : Type} [DecidableEq α] [DecidableEq β] (f : α → β → γ) (a x : α) (b y : β) (v : γ) :
    Function.update f a (Function.update (f a) b v) x y = if x = a ∧ y = b then v else f x y := by
  by_cases hx : x = a
  · subst hx
    simp [Function.update_apply]
  · rw [Function.update_of_ne hx, if_neg fun h => hx h.1]

theorem entries_send (f : Flight) (clientId : ClientId) (c : Nat) (m : Sent) :
    entries (f.send clientId c m) =
      Function.update (Function.update (entries f) (clientId, .topic m.topic) (some (.msgId c)))
        (clientId, .msgId c) (some (.cacheVal m.cacheVal)) := by
  funext ⟨x, n⟩
  cases n with
  | msgId n =>
    simp only [entries, Flight.send, update_update_apply, Function.update_apply, Prod.mk.injEq, Name.msgId.injEq,
      reduceCtorEq, and_false, if_false]
    split <;> rfl
  | topic t =>
    simp only [entries, Flight.send, update_update_apply, Function.update_apply, Prod.mk.injEq, Name.topic.injEq,
      reduceCtorEq, and_false, if_false]
    split <;> rfl

theorem entries_ack (f : Flight) (clientId : ClientId) (c : Nat) (m : Sent) :
    entries (f.ack clientId c m) =
      Function.update (Function.update (entries f) (clientId, .msgId c) none) (clientId, .topic m.topic) none := by
  funext ⟨x, n⟩
  cases n with
  | msgId n =>
    simp only [entries, Flight.ack, update_update_apply, Function.update_apply, Prod.mk.injEq, Name.msgId.injEq,
      reduceCtorEq, and_false, if_false]
    split <;> rfl
  | topic t =>
    simp only [entries, Flight.ack, update_update_apply, Function.update_apply, Prod.mk.injEq, Name.topic.injEq,
      reduceCtorEq, and_false, if_false]
    split <;> rfl

theorem sent_send (f : Flight) (clientId x : ClientId) (c n : Nat) (m : Sent) :
    (f.send clientId c m).sent x n = if x = clientId ∧ n = c then some m else f.sent x n :=
  update_update_apply ..

theorem sent_ack (f : Flight) (clientId x : ClientId) (c n : Nat) (m : Sent) :
    (f.ack clientId c m).sent x n = if x = clientId ∧ n = c then none else f.sent x n :=
  update_update_apply ..

theorem entries_of_sent {f : Flight} {clientId : ClientId} {c : Nat} {m : Sent} (h : f.sent clientId c = some m) :
    entries f (clientId, .msgId c) = some (.cacheVal m.cacheVal) := by
  rw [entries, h, Option.map_some]

theorem sent_of_ack {f : Flight} {clientId x : ClientId} {c n : Nat} {m v : Sent}
    (h : (f.ack clientId c m).sent x n = some v) : f.sent x n = some v := by
  rw [sent_ack] at h
  split at h
  · cases h
  · exact h

theorem latest_of_ack {f : Flight} {clientId x : ClientId} {c n : Nat} {m : Sent} {t : Bytes}
    (h : (f.ack clientId c m).latest x t = some n) : f.latest x t = some n := by
  simp only [Flight.ack, update_update_apply] at h
  split at h
  · cases h
  · exact h

/-- What is in use after a sending has an entry, or was in use before. -/
theorem InUse.of_send {f : Flight} {clientId : ClientId} {c : Nat} {m : Sent} {x : ClientId × Name}
    (h : InUse (f.send clientId c m) x) :
    entries (f.send clientId c m) x ≠ none ∨ ∃ clientId' c' m', (f.send clientId c m).sent clientId' c' = some m' ∧
      f.sent clientId' c' = some m' ∧ x = (clientId', .topic m'.topic) := by
  rcases h with h | ⟨clientId', c', m', hm', rfl⟩
  · exact Or.inl h
  by_cases hnew : clientId' = clientId ∧ c' = c
  · obtain ⟨rfl, rfl⟩ := hnew
    rw [sent_send, if_pos ⟨rfl, rfl⟩] at hm'
    obtain rfl := Option.some.inj hm'
    left
    rw [entries_send, Function.update_of_ne (by simp), Function.update_self]
    simp
  · refine Or.inr ⟨clientId', c', m', hm', ?_, rfl⟩
    rwa [sent_send, if_neg hnew] at hm'

theorem InUse.of_ack {f : Flight} {clientId : ClientId} {c : Nat} {m : Sent} {x : ClientId × Name}
    (h : InUse (f.ack clientId c m) x) : InUse f x := by
  rcases h with h | ⟨x, n, v, h, rfl⟩
  · rw [entries_ack] at h
    exact Or.inl (ne_none_of_erase (ne_none_of_erase h))
  · exact Or.inr ⟨x, n, v, sent_of_ack h, rfl⟩

/-! ## Runs -/

structure QosState where
  server : Server
  flight : Flight

/-- Besides the messages with QoS: a call that stores nothing under an id, as with no QoS, a message
too old or one that is cut off. -/
inductive QosStep (L : Libs)
  | send (x : Send L)
  | idle (clientId : ClientId) (recvTime stamp : Int) (sQos : Nat) (buffer : Bytes)
      (h : ∀ d, (processQueueFor L recvTime stamp clientId.1 sQos buffer d).1.outstanding = d.outstanding)
  | puback (p : Puback)

/-- An acknowledged message is in flight no longer. -/
def ackFlight (f : Flight) (p : Puback) : Flight :=
  match p.msgId with
  | none => f
  | some c =>
    match f.sent p.clientId c with
    | none => f
    | some m => f.ack p.clientId c m

def qosStep (W : ServerLibs) (s : QosState) : QosStep W.toLibs → QosState
  | .send x =>
    ⟨{ s.server with dicts := (processQueueFor W.toLibs x.recvTime x.stamp x.clientId.1 x.sQos x.message.bytes s.server.dicts).1 },
      s.flight.send x.clientId (x.cMsgId s.server.dicts) x.sent⟩
  | .idle clientId recvTime stamp sQos buffer _ =>
    ⟨{ s.server with dicts := (processQueueFor W.toLibs recvTime stamp clientId.1 sQos buffer s.server.dicts).1 }, s.flight⟩
  | .puback p => ⟨(parseMessagePuback W p s.server).1, ackFlight s.flight p⟩

/-- Nothing is in flight. -/
structure NoFlight (s : QosState) : Prop where
  flight : s.flight = .empty
  outstanding : s.server.dicts.outstanding = fun _ => none

/-- Less than half of the ring of offsets lies from `a` up to `b`. -/
def BehindInRing (a b : Int) : Prop := 0 < (b - a) % intMaxRing ∧ 2 * ((b - a) % intMaxRing) < intMaxRing

/-- What a `PUBACK` does in this state: it removes the entry of the message and that of its topic
and no other; once more it changes nothing; and no offset moves backward. -/
structure AckLaw (W : ServerLibs) (s : QosState) : Prop where
  stored : Keeps key (entries s.flight) s.server.dicts.outstanding
  removes : ∀ p c m, p.msgId = some c → s.flight.sent p.clientId c = some m →
    Keeps key (entries (s.flight.ack p.clientId c m)) (parseMessagePuback W p s.server).1.dicts.outstanding
  again : ∀ p q : Puback, q.clientId = p.clientId → q.msgId = p.msgId →
    (parseMessagePuback W q (parseMessagePuback W p s.server).1).1 = (parseMessagePuback W p s.server).1
  forward : ∀ p clientId topic o, s.server.consumer clientId topic = some o →
    ∃ o', (parseMessagePuback W p s.server).1.consumer clientId topic = some o' ∧ ¬ BehindInRing o' o

/-- A message goes out under the publisher's own id, with names that are written differently from
those in use, and not behind the client's offset. What is acknowledged leaves nothing of its topic
in flight behind it. -/
def StepOk (W : ServerLibs) (s : QosState) : QosStep W.toLibs → Prop
  | .send x =>
    x.sent.pMsgId = x.cMsgId s.server.dicts ∧
      KeysDistinct (s.flight.send x.clientId (x.cMsgId s.server.dicts) x.sent) ∧
      ∀ o, s.server.consumer x.clientId x.sent.topic = some o → ¬ BehindInRing x.sent.offset o
  | .idle .. => True
  | .puback p =>
    ∀ c m, p.msgId = some c → s.flight.sent p.clientId c = some m →
      ∀ n v, n ≠ c → s.flight.sent p.clientId n = some v → v.topic = m.topic → ¬ BehindInRing v.offset m.offset

structure QosInv (s : QosState) : Prop where
  stored : Keeps key (entries s.flight) s.server.dicts.outstanding
  distinct : KeysDistinct s.flight
  own : ∀ clientId c m, s.flight.sent clientId c = some m → m.pMsgId = c
  numbers : ∀ clientId t n, s.flight.latest clientId t = some n → n ≤ 65535
  forward : ∀ clientId c m o, s.flight.sent clientId c = some m → s.server.consumer clientId m.topic = some o →
    ¬ BehindInRing m.offset o

/-! ## Acknowledging -/

theorem not_behindInRing_self (o : Int) : ¬ BehindInRing o o := by
  rw [BehindInRing, sub_self]
  rintro ⟨h, -⟩
  simp at h

theorem slash_not_mem_decimal (n : Nat) : (0x2f : UInt8) ∉ decimal n := by
  intro h
  rw [decimal, List.mem_map] at h
  obtain ⟨c, hc, he⟩ := h
  have hdigit := toNat_of_mem_toDigits hc
  have hbyte : (UInt8.ofNat c.toNat).toNat = 0x2f := by rw [he]; rfl
  rw [UInt8.toNat_ofNat'] at hbyte
  omega

/-- The last slash ends the client's id. -/
theorem outstandingKey_decimal_inj {a b : Bytes} {m n : Nat}
    (h : outstandingKey a (decimal m) = outstandingKey b (decimal n)) : a = b ∧ m = n := by
  have hclient : a = b := by
    rw [outstandingKey, outstandingKey, List.append_eq_append_iff] at h
    rcases h with ⟨z, hz, he⟩ | ⟨z, hz, he⟩
    · cases z with
      | nil => rw [hz, List.append_nil]
      | cons y z =>
        rw [List.cons_append, List.cons.injEq] at he
        exact absurd (by rw [he.2]; simp) (slash_not_mem_decimal m)
    · cases z with
      | nil => rw [hz, List.append_nil]
      | cons y z =>
        rw [List.cons_append, List.cons.injEq] at he
        exact absurd (by rw [he.2]; simp) (slash_not_mem_decimal n)
  subst hclient
  exact ⟨rfl, decimal_injective (outstandingKey_inj h)⟩

section

variable {W : ServerLibs} {p : Puback} {self : Server} {f : Flight}

/-- Under the key of a message that is not in flight there is at most a topic's number. -/
theorem bytes_length_of_not_sent (hk : Keeps key (entries f) self.dicts.outstanding)
    (hn : ∀ clientId t n, f.latest clientId t = some n → n ≤ 65535) {clientId : ClientId} {c : Nat}
    (hs : f.sent clientId c = none) {o : Outstanding}
    (ho : self.dicts.getOutstanding clientId.1 (decimal c) = some o) : o.bytes.length ≤ 5 := by
  obtain ⟨⟨x, name⟩, he, hkey⟩ := (hk.get _ o).1 ho
  cases name with
  | msgId n =>
    obtain ⟨hclient, rfl⟩ := outstandingKey_decimal_inj hkey
    obtain rfl := Subtype.ext hclient
    rw [entries, hs] at he
    cases he
  | topic t =>
    rw [entries, Option.map_eq_some_iff] at he
    obtain ⟨n, hn', rfl⟩ := he
    exact decimal_length (hn x t n hn')

/-- A `PUBACK` for no message in flight changes nothing. -/
theorem parseMessagePuback_not_sent (hk : Keeps key (entries f) self.dicts.outstanding)
    (hn : ∀ clientId t n, f.latest clientId t = some n → n ≤ 65535)
    (hs : ∀ c, p.msgId = some c → f.sent p.clientId c = none) : (parseMessagePuback W p self).1 = self :=
  parseMessagePuback_none fun c hc _ ho => bytes_length_of_not_sent hk hn (hs c hc) ho

theorem parseMessagePuback_sent (hk : Keeps key (entries f) self.dicts.outstanding) {c : Nat} {m : Sent}
    (hid : p.msgId = some c) (hs : f.sent p.clientId c = some m) : Acked p m self (parseMessagePuback W p self).1 :=
  parseMessagePuback_some hid (hk.get_of_some (entries_of_sent hs))

/-- The message in flight that a `PUBACK` is for. -/
theorem not_sent_or_sent (f : Flight) (p : Puback) :
    (∀ c, p.msgId = some c → f.sent p.clientId c = none) ∨ ∃ c m, p.msgId = some c ∧ f.sent p.clientId c = some m := by
  cases hid : p.msgId with
  | none => exact Or.inl fun c hc => by cases hc
  | some c =>
    cases hs : f.sent p.clientId c with
    | none =>
      refine Or.inl fun c' hc' => ?_
      rw [← Option.some.inj hc', hs]
    | some m => exact Or.inr ⟨c, m, rfl, hs⟩

theorem ackFlight_not_sent (hs : ∀ c, p.msgId = some c → f.sent p.clientId c = none) : ackFlight f p = f := by
  rw [ackFlight]
  cases hid : p.msgId with
  | none => rfl
  | some c => simp only [hs c hid]

theorem ackFlight_sent {c : Nat} {m : Sent} (hid : p.msgId = some c) (hs : f.sent p.clientId c = some m) :
    ackFlight f p = f.ack p.clientId c m := by
  rw [ackFlight, hid]
  simp only [hs]

end

namespace QosInv

variable {W : ServerLibs} {s : QosState} {p : Puback} {c : Nat} {m : Sent}

theorem removes (h : QosInv s) (hid : p.msgId = some c) (hs : s.flight.sent p.clientId c = some m) :
    Keeps key (entries (s.flight.ack p.clientId c m)) (parseMessagePuback W p s.server).1.dicts.outstanding := by
  have hentry : entries s.flight (p.clientId, .msgId c) ≠ none := by
    rw [entries_of_sent hs]
    simp
  have herased := h.stored.erase (h.stored.free hentry)
  have htopic : Free key (Function.update (entries s.flight) (p.clientId, .msgId c) none)
      (p.clientId, .topic m.topic) := by
    intro x hx hkey
    by_contra hne
    exact hx (h.distinct x _ (Or.inl (ne_none_of_erase hne)) (Or.inr ⟨_, c, m, hs, rfl⟩) hkey)
  rw [(parseMessagePuback_sent h.stored hid hs).dicts, entries_ack, h.own _ _ _ hs]
  exact herased.erase htopic

theorem again (h : QosInv s) (p q : Puback) (hclient : q.clientId = p.clientId) (hid : q.msgId = p.msgId) :
    (parseMessagePuback W q (parseMessagePuback W p s.server).1).1 = (parseMessagePuback W p s.server).1 := by
  rcases not_sent_or_sent s.flight p with hp | ⟨c, m, hc, hs⟩
  · rw [parseMessagePuback_not_sent h.stored h.numbers hp]
    refine parseMessagePuback_not_sent h.stored h.numbers fun c hc => ?_
    rw [hclient, hp c (hid ▸ hc)]
  · have hnumbers : ∀ clientId t n, (s.flight.ack p.clientId c m).latest clientId t = some n → n ≤ 65535 :=
      fun clientId t n hn => h.numbers clientId t n (latest_of_ack hn)
    refine parseMessagePuback_not_sent (h.removes hc hs) hnumbers fun c' hc' => ?_
    obtain rfl := Option.some.inj (hc'.symm.trans (hid.trans hc))
    rw [hclient, sent_ack, if_pos ⟨rfl, rfl⟩]

theorem consumer_forward (h : QosInv s) (p : Puback) (clientId : ClientId) (topic : Bytes) (o : Int)
    (ho : s.server.consumer clientId topic = some o) :
    ∃ o', (parseMessagePuback W p s.server).1.consumer clientId topic = some o' ∧ ¬ BehindInRing o' o := by
  rcases not_sent_or_sent s.flight p with hp | ⟨c, m, hc, hs⟩
  · rw [parseMessagePuback_not_sent h.stored h.numbers hp]
    exact ⟨o, ho, not_behindInRing_self o⟩
  · rw [(parseMessagePuback_sent h.stored hc hs).consumer, update_update_apply]
    by_cases htopic : clientId = p.clientId ∧ topic = m.topic
    · obtain ⟨rfl, rfl⟩ := htopic
      rw [if_pos ⟨rfl, rfl⟩]
      exact ⟨m.offset, rfl, h.forward _ _ _ _ hs ho⟩
    · rw [if_neg htopic]
      exact ⟨o, ho, not_behindInRing_self o⟩

theorem ackLaw (h : QosInv s) : AckLaw W s :=
  ⟨h.stored, fun _ _ _ hid hs => h.removes hid hs, h.again, h.consumer_forward⟩

end QosInv

/-! ## Every step -/

theorem nextMsgId_le (o : Option Nat) : nextMsgId o ≤ 65535 := by
  cases o with
  | none => decide
  | some n =>
    rw [nextMsgId]
    split <;> omega

section

variable {W : ServerLibs} {s : QosState}

theorem outstanding_send (x : Send W.toLibs) :
    (qosStep W s (.send x)).server.dicts.outstanding =
      Function.update (Function.update s.server.dicts.outstanding (key (x.clientId, .topic x.sent.topic))
          (some (.msgId (x.cMsgId s.server.dicts))))
        (key (x.clientId, .msgId (x.cMsgId s.server.dicts))) (some (.cacheVal x.sent.cacheVal)) :=
  x.processQueueFor_fst s.server.dicts

theorem ne_none_of_set {α β : Type} [DecidableEq α] {A : α → Option β} {a x : α} {b : β} (h : A x ≠ none) :
    Function.update A a (some b) x ≠ none := by
  by_cases hx : x = a
  · rw [hx, Function.update_self]
    simp
  · rwa [Function.update_of_ne hx]

theorem keeps_send {f : Flight} {T : Bytes → Option Outstanding} (hk : Keeps key (entries f) T) {clientId : ClientId}
    {c : Nat} {m : Sent} (hd : KeysDistinct (f.send clientId c m)) :
    Keeps key (entries (f.send clientId c m))
      (Function.update (Function.update T (key (clientId, .topic m.topic)) (some (.msgId c)))
        (key (clientId, .msgId c)) (some (.cacheVal m.cacheVal))) := by
  have hentries := entries_send f clientId c m
  have htopic : Free key (entries f) (clientId, .topic m.topic) := by
    intro x hx hkey
    by_contra hne
    refine hx (hd _ _ (Or.inl ?_) (Or.inl ?_) hkey)
    · rw [hentries]
      exact ne_none_of_set (ne_none_of_set hne)
    · rw [hentries]
      refine ne_none_of_set ?_
      rw [Function.update_self]
      simp
  have hid : Free key (Function.update (entries f) (clientId, .topic m.topic) (some (.msgId c)))
      (clientId, .msgId c) := by
    intro x hx hkey
    by_contra hne
    refine hx (hd _ _ (Or.inl ?_) (Or.inl ?_) hkey)
    · rw [hentries]
      exact ne_none_of_set hne
    · rw [hentries, Function.update_self]
      simp
  rw [hentries]
  exact (hk.set htopic _).set hid _

theorem QosInv.send (h : QosInv s) {x : Send W.toLibs} (hok : StepOk W s (.send x)) :
    QosInv (qosStep W s (.send x)) := by
  obtain ⟨hown, hd, hforward⟩ := hok
  refine ⟨?_, hd, ?_, ?_, ?_⟩
  · rw [outstanding_send]
    exact keeps_send h.stored hd
  · intro clientId c m hs
    rw [qosStep, sent_send] at hs
    split at hs
    · next heq => rw [← Option.some.inj hs, heq.2, hown]
    · exact h.own _ _ _ hs
  · intro clientId t n hn
    simp only [qosStep, Flight.send, update_update_apply] at hn
    split at hn
    · rw [← Option.some.inj hn]
      exact nextMsgId_le _
    · exact h.numbers _ _ _ hn
  · intro clientId c m o hs ho
    rw [qosStep, sent_send] at hs
    split at hs
    · next heq =>
      obtain rfl := Option.some.inj hs
      obtain ⟨rfl, rfl⟩ := heq
      exact hforward o ho
    · exact h.forward _ _ _ _ hs ho

theorem QosInv.puback (h : QosInv s) {p : Puback} (hok : StepOk W s (.puback p)) :
    QosInv (qosStep W s (.puback p)) := by
  rcases not_sent_or_sent s.flight p with hp | ⟨c, m, hc, hs⟩
  · rw [qosStep, parseMessagePuback_not_sent h.stored h.numbers hp, ackFlight_not_sent hp]
    exact h
  · rw [qosStep, ackFlight_sent hc hs]
    refine ⟨h.removes hc hs, fun x y hx hy => h.distinct x y hx.of_ack hy.of_ack,
      fun _ _ _ hv => h.own _ _ _ (sent_of_ack hv), fun _ _ _ hn => h.numbers _ _ _ (latest_of_ack hn), ?_⟩
    intro clientId n v o hv ho
    simp only at hv ho
    have hv' := sent_of_ack hv
    rw [(parseMessagePuback_sent h.stored hc hs).consumer, update_update_apply] at ho
    by_cases htopic : clientId = p.clientId ∧ v.topic = m.topic
    · rw [if_pos htopic] at ho
      obtain ⟨rfl, ht⟩ := htopic
      have hn : n ≠ c := by
        rintro rfl
        rw [sent_ack, if_pos ⟨rfl, rfl⟩] at hv
        cases hv
      rw [← Option.some.inj ho]
      exact hok c m hc hs n v hn hv' ht
    · rw [if_neg htopic] at ho
      exact h.forward _ _ _ _ hv' ho

theorem QosInv.step (h : QosInv s) {a : QosStep W.toLibs} (hok : StepOk W s a) : QosInv (qosStep W s a) := by
  cases a with
  | send x => exact h.send hok
  | idle clientId recvTime stamp sQos buffer hidle => exact ⟨(hidle _).symm ▸ h.stored, h.distinct, h.own, h.numbers, h.forward⟩
  | puback p => exact h.puback hok

/-! ## The step that an acknowledgement finds in order -/

/-- A `PUBACK` of two bytes. -/
def pubackOf (clientId : ClientId) (c : Nat) : Puback where
  clientId := clientId
  now := 0
  messageTypeFlags := 0x40
  remainingLen := 2
  message := utilityMqttWriteUint16 c

theorem msgId_pubackOf (clientId : ClientId) {c : Nat} (hc : c ≤ 65535) : (pubackOf clientId c).msgId = some c := by
  have hbytes : utilityMqttWriteUint16 c = [UInt8.ofNat (c / 256), UInt8.ofNat c] := by
    rw [writeUint16_eq_toBe]
    simp [toBe]
  have hnum : (UInt8.ofNat (c / 256)).toNat * 256 + (UInt8.ofNat c).toNat = c := by
    rw [UInt8.toNat_ofNat', UInt8.toNat_ofNat']
    omega
  simp only [Puback.msgId, pubackOf, hbytes, hnum]
  exact if_neg (by decide)

/-- Under the key of a message in flight stands its string until it is acknowledged. -/
theorem AckLaw.pMsgId_eq (h : AckLaw W s) {clientId : ClientId} {c : Nat} {m : Sent}
    (hs : s.flight.sent clientId c = some m) (hc : c ≤ 65535)
    (htopic : key (clientId, .topic m.topic) ≠ key (clientId, .msgId c)) : m.pMsgId = c := by
  have hid := msgId_pubackOf clientId hc
  have hack := parseMessagePuback_sent (W := W) (p := pubackOf clientId c) h.stored hid hs
  have hremoved := h.removes (pubackOf clientId c) c m hid hs
  by_contra hne
  have hkey : key (clientId, .msgId c) ≠ key (clientId, .msgId m.pMsgId) := fun he =>
    hne (outstandingKey_decimal_inj he).2.symm
  have hstill : (parseMessagePuback W (pubackOf clientId c) s.server).1.dicts.outstanding (key (clientId, .msgId c)) =
      some (.cacheVal m.cacheVal) := by
    rw [hack.dicts]
    refine (Function.update_of_ne htopic.symm _ _).trans ?_
    refine (Function.update_of_ne hkey _ _).trans ?_
    exact h.stored.get_of_some (entries_of_sent hs)
  obtain ⟨⟨x, name⟩, he, hx⟩ := (hremoved.get _ _).1 hstill
  cases name with
  | msgId n =>
    obtain ⟨hclient, rfl⟩ := outstandingKey_decimal_inj hx
    obtain rfl := Subtype.ext hclient
    rw [entries, sent_ack, if_pos ⟨rfl, rfl⟩] at he
    cases he
  | topic t =>
    rw [entries, Option.map_eq_some_iff] at he
    obtain ⟨n, -, he⟩ := he
    cases he

theorem key_topic_ne {clientId : ClientId} {c : Nat} {t : Bytes}
    (hk : Keeps key (entries s.flight) s.server.dicts.outstanding)
    (ht : entries s.flight (clientId, .topic t) ≠ none) (hc : entries s.flight (clientId, .msgId c) ≠ none) :
    key (clientId, .topic t) ≠ key (clientId, .msgId c) := by
  intro he
  have h := hk.distinct _ _ ht hc he
  simp at h

/-- An acknowledgement of `m` leaves nothing under the key of its topic. -/
theorem AckLaw.topic_inj (h : AckLaw W s) {clientId : ClientId} {c : Nat} {m : Sent}
    (hs : s.flight.sent clientId c = some m) (hc : c ≤ 65535) {y : ClientId × Name} (hy : entries s.flight y ≠ none)
    (hkey : key (clientId, .topic m.topic) = key y) : y = (clientId, .topic m.topic) ∨ y = (clientId, .msgId c) := by
  by_contra hne
  rw [not_or] at hne
  have hid := msgId_pubackOf clientId hc
  have hack := parseMessagePuback_sent (W := W) (p := pubackOf clientId c) h.stored hid hs
  have hremoved := h.removes (pubackOf clientId c) c m hid hs
  obtain ⟨b, hb⟩ := Option.ne_none_iff_exists'.1 hy
  have hstill : entries (s.flight.ack clientId c m) y = some b := by
    rw [entries_ack, Function.update_of_ne hne.1, Function.update_of_ne hne.2, hb]
  have hget := hremoved.get_of_some hstill
  have hgone : (parseMessagePuback W (pubackOf clientId c) s.server).1.dicts.outstanding
      (key (clientId, .topic m.topic)) = none := by
    rw [hack.dicts, Dicts.setOutstanding]
    exact Function.update_self ..
  rw [← hkey, hgone] at hget
  cases hget

theorem QosInv.id_le (h : QosInv s) {clientId : ClientId} {c : Nat} {m : Sent}
    (hs : s.flight.sent clientId c = some m) : c ≤ 65535 := by
  have := m.pMsgId_lt
  have := h.own _ _ _ hs
  omega

theorem keysDistinct_of_ackLaw (h : QosInv s) {x : Send W.toLibs} (hlaw : AckLaw W (qosStep W s (.send x))) :
    KeysDistinct (s.flight.send x.clientId (x.cMsgId s.server.dicts) x.sent) := by
  -- a topic without an entry was in use before; against it stands what the acknowledgement removes
  have hmixed : ∀ {clientId c m y}, (qosStep W s (.send x)).flight.sent clientId c = some m →
      s.flight.sent clientId c = some m → entries (qosStep W s (.send x)).flight y ≠ none →
      key (clientId, .topic m.topic) = key y → y = (clientId, .topic m.topic) := by
    intro clientId c m y hnew hold hy hkey
    rcases hlaw.topic_inj hnew (h.id_le hold) hy hkey with rfl | rfl
    · rfl
    · refine (h.distinct _ _ (Or.inr ⟨_, c, m, hold, rfl⟩) (Or.inl ?_) hkey).symm
      rw [entries_of_sent hold]
      simp
  intro y z hy hz hkey
  rcases hy.of_send with hy | ⟨clientId, c, m, hnew, hold, rfl⟩
  · rcases hz.of_send with hz | ⟨clientId, c, m, hnew, hold, rfl⟩
    · exact hlaw.stored.distinct y z hy hz hkey
    · exact hmixed hnew hold hy hkey.symm
  · rcases hz.of_send with hz | ⟨clientId', c', m', hnew', hold', rfl⟩
    · exact (hmixed hnew hold hz hkey).symm
    · exact h.distinct _ _ (Or.inr ⟨_, c, m, hold, rfl⟩) (Or.inr ⟨_, c', m', hold', rfl⟩) hkey

theorem stepOk_send (h : QosInv s) {x : Send W.toLibs} (hlaw : AckLaw W (qosStep W s (.send x))) :
    StepOk W s (.send x) := by
  have hc : x.cMsgId s.server.dicts ≤ 65535 := nextMsgId_le _
  have hs : (qosStep W s (.send x)).flight.sent x.clientId (x.cMsgId s.server.dicts) = some x.sent := by
    rw [qosStep, sent_send, if_pos ⟨rfl, rfl⟩]
  refine ⟨hlaw.pMsgId_eq hs hc (key_topic_ne hlaw.stored ?_ ?_), keysDistinct_of_ackLaw h hlaw, ?_⟩
  · rw [qosStep, entries_send, Function.update_of_ne (by simp), Function.update_self]
    simp
  · rw [entries_of_sent hs]
    simp
  · intro o ho
    have hid := msgId_pubackOf x.clientId hc
    have hack := parseMessagePuback_sent (W := W) (p := pubackOf x.clientId _) hlaw.stored hid hs
    obtain ⟨o', ho', hbehind⟩ := hlaw.forward (pubackOf x.clientId _) x.clientId x.sent.topic o ho
    rw [hack.consumer, update_update_apply, if_pos ⟨rfl, rfl⟩] at ho'
    rwa [← Option.some.inj ho'] at hbehind

theorem stepOk_puback (h : QosInv s) {p : Puback} (hlaw : AckLaw W (qosStep W s (.puback p))) :
    StepOk W s (.puback p) := by
  intro c m hc hs n v hn hv htopic
  rw [qosStep, ackFlight_sent hc hs] at hlaw
  have hid := msgId_pubackOf p.clientId (h.id_le hv)
  have hstill : (s.flight.ack p.clientId c m).sent p.clientId n = some v := by
    rw [sent_ack, if_neg (fun he => hn he.2), hv]
  have hbefore : (parseMessagePuback W p s.server).1.consumer p.clientId m.topic = some m.offset := by
    rw [(parseMessagePuback_sent h.stored hc hs).consumer, update_update_apply, if_pos ⟨rfl, rfl⟩]
  have hack := parseMessagePuback_sent (W := W) (p := pubackOf p.clientId n) hlaw.stored hid hstill
  obtain ⟨o', ho', hbehind⟩ := hlaw.forward (pubackOf p.clientId n) p.clientId m.topic m.offset hbefore
  rw [hack.consumer, update_update_apply, if_pos ⟨rfl, htopic.symm⟩] at ho'
  rwa [← Option.some.inj ho'] at hbehind

theorem stepOk_of_ackLaw (h : QosInv s) {a : QosStep W.toLibs} (hlaw : AckLaw W (qosStep W s a)) : StepOk W s a := by
  cases a with
  | send x => exact stepOk_send h hlaw
  | idle => trivial
  | puback p => exact stepOk_puback h hlaw

theorem qosInv_of_noFlight (h : NoFlight s) : QosInv s := by
  obtain ⟨hflight, houtstanding⟩ := h
  have hnone : ∀ clientId c m, s.flight.sent clientId c ≠ some m := by
    intro clientId c m he
    rw [hflight] at he
    cases he
  refine ⟨?_, ?_, fun _ _ _ hs => absurd hs (hnone _ _ _), ?_, fun _ _ _ _ hs => absurd hs (hnone _ _ _)⟩
  · rw [hflight, houtstanding, entries_empty]
    exact Keeps.empty
  · rintro x y (hx | ⟨clientId, c, m, hs, -⟩)
    · rw [hflight, entries_empty] at hx
      exact absurd rfl hx
    · exact absurd hs (hnone _ _ _)
  · intro clientId t n hn
    rw [hflight] at hn
    cases hn

end

/-- **Acknowledgements**: from nothing in flight on, each `PUBACK` removes what it acknowledges and
that only, its repetition changes nothing and no offset moves backward in every state of a run,
exactly when each message goes out under the publisher's id, with names of their own and in the
order of the offsets, and the acknowledgements of a topic keep that order. -/
theorem acks_exact_iff (W : ServerLibs) {s : QosState} (h : NoFlight s) (as : List (QosStep W.toLibs)) :
    Always (qosStep W) (fun s a => AckLaw W (qosStep W s a)) s as ↔ Always (qosStep W) (StepOk W) s as := by
  refine always_congr (qosStep W) (I := QosInv) ?_ ?_ as (qosInv_of_noFlight h)
  · intro s a hs
    exact ⟨stepOk_of_ackLaw hs, fun hok => (hs.step hok).ackLaw⟩
  · intro s a hs hlaw
    exact hs.step (stepOk_of_ackLaw hs hlaw)

def atStart : QosState := ⟨⟨⟨fun _ => none, fun _ => none⟩, fun _ _ => none, [], fun _ _ => none, []⟩, .empty⟩

/-- Client `y` gets a message of topic `a` with offset 7, from client `P/x` under the id `pMsgId`. -/
def toY (pMsgId : UInt8) : Send bigEndianServer.toLibs where
  clientId := ⟨[0x79], by decide⟩
  recvTime := 0
  stamp := 0
  sQos := 1
  message := ⟨0x32, [0, 1], [0, 0, 0, 0, 0, 0, 0, 0], [], [0x50, 0x2f, 0x78], [0x61], [0, pMsgId, 0, 0, 0, 7],
    by decide, rfl, rfl, by decide, by decide, by decide⟩
  b0 := 0
  b1 := pMsgId
  app := [0, 0, 0, 7]
  sQos_pos := by decide
  qos_pos := show (0x32 &&& 0x06 : UInt8) >>> 1 > 0 by decide
  fresh := by omega
  rest_eq := rfl
  app_length := by decide

theorem keysDistinct_toY : KeysDistinct (Flight.empty.send (toY 1).clientId 1 (toY 1).sent) := by
  have huse : ∀ {x}, InUse (Flight.empty.send (toY 1).clientId 1 (toY 1).sent) x →
      x = ((toY 1).clientId, .topic (toY 1).sent.topic) ∨ x = ((toY 1).clientId, .msgId 1) := by
    intro x hx
    rcases hx.of_send with hx | ⟨_, _, _, -, hold, -⟩
    · rw [entries_send, entries_empty] at hx
      by_contra hne
      rw [not_or] at hne
      rw [Function.update_of_ne hne.2, Function.update_of_ne hne.1] at hx
      exact hx rfl
    · cases hold
  have hkey : key ((toY 1).clientId, .topic (toY 1).sent.topic) ≠ key ((toY 1).clientId, .msgId 1) := by decide
  intro x y hx hy he
  rcases huse hx with rfl | rfl
  · rcases huse hy with rfl | rfl
    · rfl
    · exact absurd he hkey
  · rcases huse hy with rfl | rfl
    · exact absurd he.symm hkey
    · rfl

theorem acks_exact_iff_toY :
    Always (qosStep bigEndianServer) (fun s a => AckLaw bigEndianServer (qosStep bigEndianServer s a)) atStart
      [.send (toY 1), .puback (pubackOf (toY 1).clientId 1)] := by
  refine (acks_exact_iff bigEndianServer ⟨rfl, rfl⟩ _).2 ⟨⟨rfl, keysDistinct_toY, ?_⟩, ?_, trivial⟩
  · intro o ho
    cases ho
  · intro c m hid hs n v hn hv
    obtain rfl : 1 = c := Option.some.inj ((msgId_pubackOf _ (by decide)).symm.trans hid)
    have hone : (toY 1).cMsgId atStart.server.dicts = 1 := rfl
    rw [qosStep, sent_send, hone, if_neg fun he => hn he.2] at hv
    cases hv

/-- The client's first message has the id 1, whatever the publisher's is. -/
theorem other_id_deleted :
    ¬ ∀ (W : ServerLibs) (s : QosState), NoFlight s → ∀ as : List (QosStep W.toLibs),
      Always (qosStep W) (fun s a => AckLaw W (qosStep W s a)) s as := by
  intro h
  have hlaw := (h bigEndianServer atStart ⟨rfl, rfl⟩ [.send (toY 7)]).1
  have hid := (stepOk_send (qosInv_of_noFlight ⟨rfl, rfl⟩) hlaw).1
  have hseven : (toY 7).sent.pMsgId = 7 := rfl
  have hone : (toY 7).cMsgId atStart.server.dicts = 1 := rfl
  rw [hseven, hone] at hid
  cases hid

end NgxPlus.Mqtt
