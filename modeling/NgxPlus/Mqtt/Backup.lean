import NgxPlus.Diversion.LuaCodec
import NgxPlus.Lib.AssocList
import NgxPlus.Mqtt.Topic
import Mathlib.Tactic.NormNum

/-!
# Backup of a client's offsets and subscriptions

| here | there |
| --- | --- |
| `uint32ToBytes`, `readUint32` | `MQTT.Utility.uint32ToBytes`, `MQTT.Utility.readUint32` (`mqtt.lua:1501-1519`) |
| `getConsumerOffset` | `getConsumerOffset` (`:349-352`) |
| `backupConsumerOffset`, `recoverConsumerOffset` | the functions of these names (`:354-383`) |
| `backupSubscribes`, `recoverSubscribes` | the functions of these names (`:404-458`) |
| `logoutLogin` | both backups (`:313-314`), then both recoveries on the next login of the client (`:919-920`) |

A Lua table is the list of its bindings in the order in which `pairs` walks it, which may be any.
`auth` stores one `Subscribe` under all its topics (`mqtt_server_module.lua:566-578`), with the
`topicFilter` of the last: what is written through one of them (`setMin`) is there under all. `bit` works on 32 bits and answers with a signed number. Reading a byte behind the end of a
buffer raises; which message Lua gives is not told apart.

Both backups leave the store alone when they have nothing to write, so what an earlier session
stored comes back, `readUint32` is signed, and what is written of a subscription is its `topicFilter`
and not its key: `backup_recover_iff` says when the client is restored all the same.
-/

namespace NgxPlus.Mqtt.Backup

open ByteMem Decode
open NgxPlus.Diversion (LuaError encodeUtf8 decodeUtf8 utf8Bytes ascii)

structure Subscribe where
  topicFilter : Bytes
  min : Int
  qos : Int
  /-- Which table it is, where one table is stored under several topics. -/
  shared : Option Nat
deriving DecidableEq, Repr

/-- The fields of `MQTT.protocol` that are backed up. -/
structure Client where
  clientId : Bytes
  topicOffsetMap : AssocList Bytes Int
  subsMap : AssocList Bytes Subscribe
deriving DecidableEq, Repr

/-- `ngx.shared.MQTT_CLIENT_DICT`. -/
abbrev ClientStore := AssocList Bytes Bytes

/-! ## Numbers -/

def bytesOf (x : BitVec 32) : Bytes :=
  [⟨(x >>> 24 &&& 0xff).setWidth 8⟩, ⟨(x >>> 16 &&& 0xff).setWidth 8⟩, ⟨(x >>> 8 &&& 0xff).setWidth 8⟩,
    ⟨(x &&& 0xff).setWidth 8⟩]

def uint32ToBytes (n : Int) : Bytes := bytesOf (.ofInt 32 n)

def readUint32 : Bytes → Except LuaError (Int × Bytes)
  | b0 :: b1 :: b2 :: b3 :: rest =>
    let s0 := b0.toBitVec.setWidth 32 &&& 0xff
    let s1 := b1.toBitVec.setWidth 32 &&& 0xff
    let s2 := b2.toBitVec.setWidth 32 &&& 0xff
    let s3 := b3.toBitVec.setWidth 32 &&& 0xff
    .ok ((s0 <<< 24 ||| s1 <<< 16 ||| s2 <<< 8 ||| s3).toInt, rest)
  | _ => .error .arithNil

theorem readUint32_write (n : Int) (rest : Bytes) :
    readUint32 (uint32ToBytes n ++ rest) = .ok (n.bmod (2 ^ 32), rest) := by
  have hbits : ∀ x : BitVec 32,
      (((x >>> 24 &&& 0xff).setWidth 8).setWidth 32 &&& 0xff) <<< 24 |||
        (((x >>> 16 &&& 0xff).setWidth 8).setWidth 32 &&& 0xff) <<< 16 |||
        (((x >>> 8 &&& 0xff).setWidth 8).setWidth 32 &&& 0xff) <<< 8 |||
        (((x &&& 0xff).setWidth 8).setWidth 32 &&& 0xff) = x := by
    intro x
    have hmask (y : BitVec 32) : ((y &&& 0xff).setWidth 8).setWidth 32 &&& 0xff = (y.setWidth 8).setWidth 32 := by
      have h8 : (0xff : BitVec 32) = (BitVec.allOnes 8).setWidth 32 := rfl
      ext i hi
      simp only [h8, BitVec.getElem_and, BitVec.getElem_setWidth, BitVec.getLsbD_setWidth, BitVec.getLsbD_and,
        BitVec.getLsbD_allOnes]
      by_cases h : i < 8 <;> simp [h, hi]
    simp only [hmask]
    ext i hi
    simp only [BitVec.getElem_or, BitVec.getElem_shiftLeft, BitVec.getElem_setWidth, BitVec.getLsbD_setWidth,
      BitVec.getLsbD_ushiftRight]
    grind
  rw [← BitVec.toInt_ofInt, uint32ToBytes, bytesOf]
  simp only [List.cons_append, List.nil_append, readUint32, hbits]

/-- 32 bits, signed or not. -/
def Word (n : Int) : Prop := -2 ^ 31 ≤ n ∧ n < 2 ^ 32

instance (n : Int) : Decidable (Word n) := inferInstanceAs (Decidable (_ ∧ _))

theorem bmod_word {n : Int} (h : Word n) : n.bmod (2 ^ 32) = n ↔ n < 2 ^ 31 := by
  obtain ⟨hlo, hhi⟩ := h
  rw [Int.bmod]
  norm_num
  split <;> omega

/-! ## Consumer offsets -/

def getConsumerOffset (c : Client) (topic : Bytes) : Option Int := c.topicOffsetMap.get (0x2f :: topic)

/-- `buff`, which stays `nil` over an empty table. -/
def appendRecords {α : Type} (record : α → Except LuaError Bytes) :
    List α → Option Bytes → Except LuaError (Option Bytes)
  | [], buff => .ok buff
  | e :: es, buff => do
    let r ← record e
    appendRecords record es (some (match buff with
      | none => r
      | some b => b ++ r))

/-- `if buff ~= nil then self.clientStore:set(key, buff)`. -/
def storeBuff (store : ClientStore) (key : Bytes) : Option Bytes → ClientStore
  | none => store
  | some buff => store.set key buff

def offsetKey (clientId : Bytes) : Bytes := ascii ['_', 'o', 'f', 'f', 's', 'e', 't', '/'] ++ clientId

def subsKey (clientId : Bytes) : Bytes := ascii ['_', 's', 'u', 'b', 's', '/'] ++ clientId

def offsetRecord (e : Bytes × Int) : Except LuaError Bytes := do
  return (← encodeUtf8 e.1) ++ uint32ToBytes e.2

def backupConsumerOffset (c : Client) (store : ClientStore) : Except LuaError ClientStore := do
  return storeBuff store (offsetKey c.clientId) (← appendRecords offsetRecord c.topicOffsetMap none)

/-- `index < len`. -/
def moreThanOne {τ : Type} (s : τ × Bytes) : Bool := decide (1 < s.2.length)

def readOffset (s : AssocList Bytes Int × Bytes) : Except LuaError (AssocList Bytes Int × Bytes) := do
  let (topic, rest) ← decodeUtf8 s.2
  let (offset, rest) ← readUint32 rest
  return (s.1.set topic offset, rest)

def recoverConsumerOffset (c : Client) (store : ClientStore) : Except LuaError Client :=
  match store.get (offsetKey c.clientId) with
  | none => .ok c
  | some buff => do
    let (topicOffsetMap, _) ← loop moreThanOne readOffset buff.length (c.topicOffsetMap, buff)
    return { c with topicOffsetMap }

/-! ## Subscriptions -/

/-- Whether `ngx.re.gmatch(topic, "(\\+|\\#)")` finds something. -/
def isWild (topic : Bytes) : Bool := topic.any fun c => c == 0x2b || c == 0x23

/-- `Subscribe.min = min` through the key `topic`. -/
def setMin (subsMap : AssocList Bytes Subscribe) (topic : Bytes) (shared : Option Nat) (min : Int) :
    AssocList Bytes Subscribe :=
  subsMap.map fun e =>
    (e.1, if e.1 = topic ∨ (shared ≠ none ∧ e.2.shared = shared) then { e.2 with min } else e.2)

/-- A plain topic takes its offset as `min`. -/
def takeOffset (c : Client) (topic : Bytes) (sub : Subscribe) : Client :=
  if isWild topic then c
  else match getConsumerOffset c topic with
    | some min => if min > 0 then { c with subsMap := setMin c.subsMap topic sub.shared min } else c
    | none => c

def subsRecord (sub : Subscribe) : Except LuaError Bytes := do
  let tmpbuff := (← encodeUtf8 sub.topicFilter) ++ uint32ToBytes sub.min
  return tmpbuff ++ uint32ToBytes sub.qos

/-- The loop over the topics, with what is written of their subscriptions; those of the live client
change with it. -/
def subsLoop : List Bytes → Client → List Subscribe → Client × List Subscribe
  | [], c, subs => (c, subs)
  | topic :: topics, c, subs =>
    match c.subsMap.get topic with
    | none => subsLoop topics c subs
    | some sub =>
      let c := takeOffset c topic sub
      subsLoop topics c (subs ++ (c.subsMap.get topic).toList)

def backupSubscribes (c : Client) (store : ClientStore) : Except LuaError (Client × ClientStore) := do
  let (c, subs) := subsLoop (c.subsMap.map Prod.fst) c []
  return (c, storeBuff store (subsKey c.clientId) (← appendRecords subsRecord subs none))

def recoverMin (c : Client) (topic : Bytes) (min : Int) : Int :=
  if min > 0 then
    match getConsumerOffset c topic with
    | some offset => if offset > 0 then offset else min
    | none => min
  else min

def readSubscribe (c : Client) (s : (AssocList Bytes Subscribe × Nat) × Bytes) :
    Except LuaError ((AssocList Bytes Subscribe × Nat) × Bytes) := do
  let (topic, rest) ← decodeUtf8 s.2
  let (min, rest) ← readUint32 rest
  let (qos, rest) ← readUint32 rest
  let wildcard := if ngxMqttTopicIsExpression topic then 1 else s.1.2
  return ((s.1.1.set topic ⟨topic, recoverMin c topic min, qos, none⟩, wildcard), rest)

/-- The client with its subscriptions, and `is_wildcard`. -/
def recoverSubscribes (c : Client) (store : ClientStore) : Except LuaError (Client × Nat) :=
  match store.get (subsKey c.clientId) with
  | none => .ok (c, 0)
  | some buff => do
    let ((subsMap, wildcard), _) ← loop moreThanOne (readSubscribe c) buff.length ((c.subsMap, 0), buff)
    return ({ c with subsMap }, wildcard)

/-- The session of `c` ends and the same client logs in again. -/
def logoutLogin (c : Client) (store : ClientStore) : Except LuaError Client := do
  let store ← backupConsumerOffset c store
  let (_, store) ← backupSubscribes c store
  let fresh ← recoverConsumerOffset ⟨c.clientId, [], []⟩ store
  let (fresh, _) ← recoverSubscribes fresh store
  return fresh

/-! ## What is written -/

def offsetBytes (e : Bytes × Int) : Bytes := utf8Bytes e.1 ++ uint32ToBytes e.2

def subsBytes (sub : Subscribe) : Bytes := utf8Bytes sub.topicFilter ++ uint32ToBytes sub.min ++ uint32ToBytes sub.qos

theorem offsetRecord_ok {e : Bytes × Int} (h : e.1.length ≤ 65535) : offsetRecord e = .ok (offsetBytes e) := by
  rw [offsetRecord, NgxPlus.Diversion.encodeUtf8_ok h]
  rfl

theorem subsRecord_ok {sub : Subscribe} (h : sub.topicFilter.length ≤ 65535) : subsRecord sub = .ok (subsBytes sub) := by
  rw [subsRecord, NgxPlus.Diversion.encodeUtf8_ok h]
  rfl

section Records

variable {α : Type} {record : α → Except LuaError Bytes} {enc : α → Bytes}

theorem appendRecords_some {es : List α} (h : ∀ e ∈ es, record e = .ok (enc e)) (b : Bytes) :
    appendRecords record es (some b) = .ok (some (b ++ es.flatMap enc)) := by
  induction es generalizing b with
  | nil => simp [appendRecords]
  | cons e es ih =>
    rw [appendRecords, h e List.mem_cons_self, ok_bind, ih fun x hx => h x (List.mem_cons_of_mem _ hx)]
    simp

/-- Nothing for an empty table, one record after the other otherwise. -/
theorem appendRecords_none {es : List α} (h : ∀ e ∈ es, record e = .ok (enc e)) :
    appendRecords record es none = .ok (if es = [] then none else some (es.flatMap enc)) := by
  cases es with
  | nil => rfl
  | cons e es =>
    rw [appendRecords, h e List.mem_cons_self, ok_bind,
      appendRecords_some fun x hx => h x (List.mem_cons_of_mem _ hx)]
    simp

theorem length_le_flatMap (h : ∀ e, 0 < (enc e).length) (es : List α) : es.length ≤ (es.flatMap enc).length := by
  induction es with
  | nil => simp
  | cons e es ih =>
    have := h e
    simp only [List.flatMap_cons, List.length_append, List.length_cons]
    omega

end Records

theorem get_storeBuff (store : ClientStore) (key : Bytes) (buff : Option Bytes) :
    (storeBuff store key buff).get key = buff.or (store.get key) := by
  cases buff with
  | none => simp [storeBuff]
  | some b => simp [storeBuff]

theorem get_storeBuff_of_ne (store : ClientStore) {key key' : Bytes} (h : key' ≠ key) (buff : Option Bytes) :
    (storeBuff store key buff).get key' = store.get key' := by
  cases buff with
  | none => rfl
  | some b => exact AssocList.get_set_of_ne store b h

theorem offsetKey_ne_subsKey (id id' : Bytes) : offsetKey id ≠ subsKey id' := by
  intro h
  have := congrArg (fun l => l.take 2) h
  simp [offsetKey, subsKey, ascii] at this

theorem length_uint32ToBytes (n : Int) : (uint32ToBytes n).length = 4 := rfl

theorem length_offsetBytes (e : Bytes × Int) : 4 ≤ (offsetBytes e).length := by
  rw [offsetBytes, List.length_append, length_uint32ToBytes]
  omega

theorem length_subsBytes (sub : Subscribe) : 4 ≤ (subsBytes sub).length := by
  rw [subsBytes, List.length_append, length_uint32ToBytes]
  omega

/-! ## What is read back -/

theorem readOffset_write {e : Bytes × Int} (h : e.1.length ≤ 65535) (t : AssocList Bytes Int) (rest : Bytes) :
    readOffset (t, offsetBytes e ++ rest) = .ok (t.set e.1 (e.2.bmod (2 ^ 32)), rest) := by
  rw [readOffset, offsetBytes, List.append_assoc]
  simp only
  rw [NgxPlus.Diversion.decodeUtf8_utf8 h, ok_bind]
  simp only
  rw [readUint32_write]
  rfl

/-- A subscription as it comes back to the client `c`. -/
def readBack (c : Client) (sub : Subscribe) : Subscribe :=
  ⟨sub.topicFilter, recoverMin c sub.topicFilter (sub.min.bmod (2 ^ 32)), sub.qos.bmod (2 ^ 32), none⟩

theorem readSubscribe_write (c : Client) {sub : Subscribe} (h : sub.topicFilter.length ≤ 65535)
    (t : AssocList Bytes Subscribe × Nat) (rest : Bytes) :
    readSubscribe c (t, subsBytes sub ++ rest) = .ok ((t.1.set sub.topicFilter (readBack c sub),
      if ngxMqttTopicIsExpression sub.topicFilter then 1 else t.2), rest) := by
  rw [readSubscribe, subsBytes, List.append_assoc, List.append_assoc]
  simp only
  rw [NgxPlus.Diversion.decodeUtf8_utf8 h, ok_bind]
  simp only
  rw [readUint32_write, ok_bind]
  simp only
  rw [readUint32_write]
  rfl

theorem loop_readOffset {es : AssocList Bytes Int} (h : ∀ e ∈ es, e.1.length ≤ 65535) {fuel : Nat}
    (hfuel : es.length ≤ fuel) :
    loop moreThanOne readOffset fuel ([], es.flatMap offsetBytes) =
      .ok ((es.map fun e => (e.1, e.2.bmod (2 ^ 32))).foldl (fun t p => t.set p.1 p.2) [], []) := by
  rw [List.foldl_map]
  refine loop_encoded (S := fun t bs => (t, bs))
    (N := fun t e => AssocList.set t e.1 (e.2.bmod (2 ^ 32))) (G := fun e => e.1.length ≤ 65535) ?_
    ?_ (fun t e rest he => readOffset_write he t rest) h _ hfuel
  · intro t e rest _
    have := length_offsetBytes e
    simp only [moreThanOne, List.length_append, decide_eq_true_eq]
    omega
  · exact fun _ => rfl

theorem loop_readSubscribe (c : Client) {subs : List Subscribe} (h : ∀ sub ∈ subs, sub.topicFilter.length ≤ 65535)
    {fuel : Nat} (hfuel : subs.length ≤ fuel) :
    ∃ w, loop moreThanOne (readSubscribe c) fuel (([], 0), subs.flatMap subsBytes) =
      .ok (((subs.map fun sub => (sub.topicFilter, readBack c sub)).foldl (fun t p => t.set p.1 p.2) [], w), []) := by
  let next (t : AssocList Bytes Subscribe × Nat) (sub : Subscribe) : AssocList Bytes Subscribe × Nat :=
    (t.1.set sub.topicFilter (readBack c sub), if ngxMqttTopicIsExpression sub.topicFilter then 1 else t.2)
  have hloop : loop moreThanOne (readSubscribe c) fuel (([], 0), subs.flatMap subsBytes) =
      .ok (subs.foldl next ([], 0), []) := by
    refine loop_encoded (S := fun t bs => (t, bs)) (N := next) (G := fun sub => sub.topicFilter.length ≤ 65535)
      ?_ ?_ ?_ h ([], 0) hfuel
    · intro t sub rest _
      have := length_subsBytes sub
      simp only [moreThanOne, List.length_append, decide_eq_true_eq]
      omega
    · exact fun _ => rfl
    · exact fun t sub rest hlen => readSubscribe_write c hlen t rest
  have hfst : ∀ (subs : List Subscribe) (t : AssocList Bytes Subscribe × Nat), (subs.foldl next t).1 =
      (subs.map fun sub => (sub.topicFilter, readBack c sub)).foldl (fun t p => t.set p.1 p.2) t.1 := by
    intro subs
    induction subs with
    | nil => simp
    | cons sub subs ih =>
      intro t
      rw [List.foldl_cons, ih, List.map_cons, List.foldl_cons]
  refine ⟨(subs.foldl next ([], 0)).2, ?_⟩
  rw [hloop, ← hfst subs ([], 0)]

/-- What is left over from before is read into the table, or it is not a backup at all. -/
theorem loop_ne_nil {ν τ : Type} {f : τ × Bytes → Except LuaError (τ × Bytes)} {g : τ → AssocList Bytes ν}
    (hf : ∀ s s', f s = .ok s' → g s'.1 ≠ []) {t : τ} {buff : Bytes} (hb : 1 < buff.length)
    {s' : τ × Bytes} (h : loop moreThanOne f buff.length (t, buff) = .ok s') : g s'.1 ≠ [] := by
  obtain ⟨fuel, hfuel⟩ : ∃ k, buff.length = k + 1 := ⟨buff.length - 1, by omega⟩
  have hm : moreThanOne (t, buff) = true := by simpa [moreThanOne] using hb
  rw [hfuel, loop_more hm, bind_eq_ok] at h
  obtain ⟨s₁, h₁, h⟩ := h
  exact loop_inv (I := fun s => g s.1 ≠ []) (fun s s' _ hs => hf s s' hs) (hf _ _ h₁) h

/-- An empty table comes back empty from what is no record. -/
theorem loop_nil_iff {ν τ : Type} {f : τ × Bytes → Except LuaError (τ × Bytes)} {g : τ → AssocList Bytes ν}
    (hf : ∀ s s', f s = .ok s' → g s'.1 ≠ []) {t : τ} (ht : g t = []) {buff : Bytes} :
    (∃ s', loop moreThanOne f buff.length (t, buff) = .ok s' ∧ g s'.1 = []) ↔ buff.length ≤ 1 := by
  constructor
  · rintro ⟨s', hs, hnil⟩
    by_contra hlen
    exact loop_ne_nil hf (Nat.not_le.1 hlen) hs hnil
  · intro hlen
    exact ⟨_, loop_stop (by simpa [moreThanOne] using hlen) _, ht⟩

theorem readOffset_ne_nil (s s' : AssocList Bytes Int × Bytes) (h : readOffset s = .ok s') : s'.1 ≠ [] := by
  rw [readOffset, bind_eq_ok] at h
  obtain ⟨r, -, h⟩ := h
  obtain ⟨r', -, h⟩ := bind_eq_ok.1 h
  obtain rfl := Except.ok.inj h
  exact List.cons_ne_nil _ _

theorem readSubscribe_ne_nil (c : Client) (s s' : (AssocList Bytes Subscribe × Nat) × Bytes)
    (h : readSubscribe c s = .ok s') : s'.1.1 ≠ [] := by
  rw [readSubscribe, bind_eq_ok] at h
  obtain ⟨r, -, h⟩ := h
  obtain ⟨r', -, h⟩ := bind_eq_ok.1 h
  obtain ⟨r'', -, h⟩ := bind_eq_ok.1 h
  obtain rfl := Except.ok.inj h
  exact List.cons_ne_nil _ _

/-! ## Back again -/

/-- What a session holds: tables, topics that fit a length of two bytes also with the `/` in
front, and numbers of 32 bits. -/
structure WF (c : Client) : Prop where
  offsetKeys : (c.topicOffsetMap.map Prod.fst).Nodup
  subsKeys : (c.subsMap.map Prod.fst).Nodup
  offsets : ∀ e ∈ c.topicOffsetMap, (∃ topic, e.1 = 0x2f :: topic ∧ topic.length ≤ 65534) ∧ Word e.2
  subs : ∀ e ∈ c.subsMap, e.1.length ≤ 65534 ∧ e.2.topicFilter.length ≤ 65534 ∧ Word e.2.min ∧ Word e.2.qos
  /-- Every caller of `storeSubscribe` passes the filter as the key, so the filter of a table is a key
  of that table, or of one that was stored later under it. -/
  own : ∀ e ∈ c.subsMap, ∀ e' ∈ c.subsMap, e'.2.topicFilter = e.1 → e.2.topicFilter = e.1
  same : ∀ e ∈ c.subsMap, ∀ e' ∈ c.subsMap, e.2.shared ≠ none → e.2.shared = e'.2.shared → e.2 = e'.2

/-- The same offsets, the same topics with the same QoS, and a plain topic's `min` is its offset. -/
structure Restored (c c' : Client) : Prop where
  offsets : ∀ key, c'.topicOffsetMap.get key = c.topicOffsetMap.get key
  subs : ∀ topic, (c'.subsMap.get topic).map Subscribe.qos = (c.subsMap.get topic).map Subscribe.qos
  mins : ∀ topic s offset, c'.subsMap.get topic = some s → isWild topic = false →
    getConsumerOffset c topic = some offset → 0 < offset → s.min = offset

/-- What was stored under `key` before holds no record. -/
def NoRecord (store : ClientStore) (key : Bytes) : Prop := ((store.get key).getD []).length ≤ 1

instance (store : ClientStore) (key : Bytes) : Decidable (NoRecord store key) := inferInstanceAs (Decidable (_ ≤ _))

/-! ### What is written of the subscriptions -/

/-- The subscription of a plain topic with an offset, as it is written where its table is its own. -/
def withOffset (c : Client) (topic : Bytes) (sub : Subscribe) : Subscribe :=
  if isWild topic then sub
  else match getConsumerOffset c topic with
    | some min => if min > 0 then { sub with min } else sub
    | none => sub

theorem takeOffset_frame (c : Client) (topic : Bytes) (sub : Subscribe) :
    (takeOffset c topic sub).clientId = c.clientId ∧ (takeOffset c topic sub).topicOffsetMap = c.topicOffsetMap := by
  unfold takeOffset
  split
  · exact ⟨rfl, rfl⟩
  · split
    · split
      · exact ⟨rfl, rfl⟩
      · exact ⟨rfl, rfl⟩
    · exact ⟨rfl, rfl⟩

/-- Only `min` changes. -/
theorem takeOffset_min (c : Client) (topic : Bytes) (sub : Subscribe) : ∃ min : Bytes × Subscribe → Int,
    (takeOffset c topic sub).subsMap = c.subsMap.map fun e => (e.1, { e.2 with min := min e }) := by
  have hsame : ∃ min : Bytes × Subscribe → Int, c.subsMap = c.subsMap.map fun e => (e.1, { e.2 with min := min e }) :=
    ⟨fun e => e.2.min, (List.map_id _).symm⟩
  unfold takeOffset
  split
  · exact hsame
  · split
    · next n _ =>
      split
      · refine ⟨fun e => if e.1 = topic ∨ (sub.shared ≠ none ∧ e.2.shared = sub.shared) then n else e.2.min, ?_⟩
        simp only [setMin]
        refine List.map_congr_left fun e _ => ?_
        split <;> rfl
      · exact hsame
    · exact hsame

theorem subsLoop_clientId (topics : List Bytes) (c : Client) (subs : List Subscribe) :
    (subsLoop topics c subs).1.clientId = c.clientId := by
  induction topics generalizing c subs with
  | nil => rfl
  | cons topic topics ih =>
    rw [subsLoop]
    split
    · exact ih c subs
    · exact (ih _ _).trans (takeOffset_frame c topic _).1

/-- What is written has the filters and the QoS of the subscriptions, in their order. -/
theorem subsLoop_written (topics : List Bytes) (c : Client) (subs : List Subscribe) :
    (subsLoop topics c subs).2.map (fun sub => (sub.topicFilter, sub.qos)) =
      subs.map (fun sub => (sub.topicFilter, sub.qos)) ++
        topics.filterMap fun topic => (c.subsMap.get topic).map fun sub => (sub.topicFilter, sub.qos) := by
  induction topics generalizing c subs with
  | nil => simp [subsLoop]
  | cons topic topics ih =>
    rw [subsLoop]
    cases hget : c.subsMap.get topic with
    | none =>
      simp only
      rw [ih, List.filterMap_cons_none (by rw [hget]; rfl)]
    | some sub =>
      simp only
      obtain ⟨min, hmin⟩ := takeOffset_min c topic sub
      have hafter : ∀ t, (takeOffset c topic sub).subsMap.get t =
          (c.subsMap.get t).map fun s => { s with min := min (t, s) } := fun t => by
        rw [hmin]
        exact AssocList.get_map (fun e : Bytes × Subscribe => { e.2 with min := min e }) _ t
      rw [ih, hafter, hget, List.filterMap_cons_some (by rw [hget]; rfl)]
      simp only [hafter, Option.map_map, Function.comp_def, Option.map_some, Option.toList_some, List.map_append,
        List.map_cons, List.map_nil, List.append_assoc, List.singleton_append]

/-- No table is stored under two topics. -/
def Unshared (c : Client) : Prop :=
  ∀ e ∈ c.subsMap, ∀ e' ∈ c.subsMap, e.2.shared ≠ none → e.2.shared = e'.2.shared → e.1 = e'.1

/-- Then `min` is written through the topic's own table. -/
theorem Unshared.takeOffset {c : Client} (h : Unshared c) (hkeys : (c.subsMap.map Prod.fst).Nodup) {topic : Bytes}
    {sub : Subscribe} (hget : c.subsMap.get topic = some sub) :
    (takeOffset c topic sub).subsMap =
      c.subsMap.map fun e => (e.1, if e.1 = topic then withOffset c topic sub else e.2) := by
  have hmem : (topic, sub) ∈ c.subsMap := AssocList.mem_of_get hget
  have hsame : c.subsMap = c.subsMap.map fun e => (e.1, if e.1 = topic then sub else e.2) := by
    refine Eq.trans (List.map_id _).symm (List.map_congr_left fun e he => ?_)
    split
    · next ht =>
      subst ht
      have hval := (AssocList.get_of_mem hkeys he).symm.trans hget
      rw [← Option.some.inj hval]
      rfl
    · rfl
  unfold Backup.takeOffset withOffset
  split
  · exact hsame
  · split
    · next n _ =>
      split
      · simp only [setMin]
        refine List.map_congr_left fun e he => ?_
        by_cases ht : e.1 = topic
        · subst ht
          have hval := Option.some.inj ((AssocList.get_of_mem hkeys he).symm.trans hget)
          rw [if_pos (Or.inl rfl), if_pos rfl, hval]
        · rw [if_neg ht, if_neg]
          rintro (heq | ⟨hne, heq⟩)
          · exact ht heq
          · exact ht (h _ hmem e he hne heq.symm).symm
      · exact hsame
    · exact hsame

theorem subsLoop_unshared {topics : List Bytes} (hnodup : topics.Nodup) {c : Client} (h : Unshared c)
    (hkeys : (c.subsMap.map Prod.fst).Nodup) (subs : List Subscribe) :
    (subsLoop topics c subs).2 =
      subs ++ topics.filterMap fun topic => (c.subsMap.get topic).map (withOffset c topic) := by
  induction topics generalizing c subs with
  | nil => simp [subsLoop]
  | cons topic topics ih =>
    obtain ⟨hnot, hnodup⟩ := List.nodup_cons.1 hnodup
    rw [subsLoop]
    cases hget : c.subsMap.get topic with
    | none =>
      simp only
      rw [ih hnodup h hkeys, List.filterMap_cons_none (by rw [hget]; rfl)]
    | some sub =>
      simp only
      have hafter := h.takeOffset hkeys hget
      have hlookup : ∀ t, (Backup.takeOffset c topic sub).subsMap.get t =
          (c.subsMap.get t).map fun s => if t = topic then withOffset c topic sub else s := fun t => by
        rw [hafter]
        exact AssocList.get_map (fun e : Bytes × Subscribe => if e.1 = topic then withOffset c topic sub else e.2) _ t
      have hunshared : Unshared (Backup.takeOffset c topic sub) := by
        obtain ⟨min, hmin⟩ := takeOffset_min c topic sub
        rw [Unshared, hmin]
        intro e he e' he'
        obtain ⟨x, hx, rfl⟩ := List.mem_map.1 he
        obtain ⟨x', hx', rfl⟩ := List.mem_map.1 he'
        exact h x hx x' hx'
      have hkeys' : ((Backup.takeOffset c topic sub).subsMap.map Prod.fst).Nodup := by
        rw [hafter, List.map_map]
        exact hkeys
      have hoffset : ∀ t, getConsumerOffset (Backup.takeOffset c topic sub) t = getConsumerOffset c t := fun t => by
        rw [getConsumerOffset, (takeOffset_frame c topic sub).2, getConsumerOffset]
      rw [ih hnodup hunshared hkeys', hlookup, hget, List.filterMap_cons_some (by rw [hget]; rfl)]
      simp only [Option.map_some, if_true, Option.toList_some, List.append_assoc, List.singleton_append]
      congr 2
      refine List.filterMap_congr fun t ht => ?_
      have hne : t ≠ topic := fun heq => hnot (heq ▸ ht)
      rw [hlookup, Option.map_map]
      refine congrArg (Option.map · _) (funext fun s => ?_)
      simp only [Function.comp_apply, if_neg hne, withOffset, hoffset]

/-- A value for each binding, looked up by its key. -/
theorem filterMap_keys {ν β : Type} {d : AssocList Bytes ν} (hd : (d.map Prod.fst).Nodup) (g : Bytes → ν → β) :
    (d.map Prod.fst).filterMap (fun k => (AssocList.get d k).map (g k)) = d.map fun e => g e.1 e.2 := by
  rw [List.filterMap_map, ← List.filterMap_eq_map]
  refine List.filterMap_congr fun e he => ?_
  rw [Function.comp_apply, AssocList.get_of_mem hd he]
  rfl

/-- What the backup writes of the subscriptions: their filters and their QoS, and where the filters
are the keys, each with its offset. -/
structure Written (c : Client) (subs : List Subscribe) : Prop where
  fields : subs.map (fun sub => (sub.topicFilter, sub.qos)) = c.subsMap.map fun e => (e.2.topicFilter, e.2.qos)
  offsets : (∀ e ∈ c.subsMap, e.2.topicFilter = e.1) → subs = c.subsMap.map fun e => withOffset c e.1 e.2

section

variable {c : Client} (hc : WF c)

include hc

theorem WF.exists_written : ∃ subs c₁, subsLoop (c.subsMap.map Prod.fst) c [] = (c₁, subs) ∧
    c₁.clientId = c.clientId ∧ Written c subs := by
  refine ⟨_, _, rfl, subsLoop_clientId _ c [], ?_, fun hown => ?_⟩
  · rw [subsLoop_written, List.map_nil, List.nil_append]
    exact filterMap_keys hc.subsKeys fun _ sub => (sub.topicFilter, sub.qos)
  · have hunshared : Unshared c := by
      intro e he e' he' hne heq
      rw [← hown e he, hc.same e he e' he' hne heq, hown e' he']
    rw [subsLoop_unshared hc.subsKeys hunshared hc.subsKeys, List.nil_append]
    exact filterMap_keys hc.subsKeys fun topic sub => withOffset c topic sub

omit hc in
theorem Written.filter_length {subs : List Subscribe} (hw : Written c subs) (hc : WF c) :
    ∀ sub ∈ subs, sub.topicFilter.length ≤ 65535 := by
  intro sub hsub
  have hfields : (sub.topicFilter, sub.qos) ∈ c.subsMap.map fun e => (e.2.topicFilter, e.2.qos) := by
    rw [← hw.fields]
    exact List.mem_map_of_mem (f := fun sub : Subscribe => (sub.topicFilter, sub.qos)) hsub
  obtain ⟨e, he, heq⟩ := List.mem_map.1 hfields
  rw [← (Prod.mk.inj heq).1]
  exact (hc.subs e he).2.1.trans (by omega)

theorem WF.offset_length {e : Bytes × Int} (he : e ∈ c.topicOffsetMap) : e.1.length ≤ 65535 := by
  obtain ⟨⟨topic, hkey, hlen⟩, -⟩ := hc.offsets e he
  rw [hkey, List.length_cons]
  omega

theorem backupConsumerOffset_eq (store : ClientStore) : backupConsumerOffset c store =
    .ok (storeBuff store (offsetKey c.clientId)
      (if c.topicOffsetMap = [] then none else some (c.topicOffsetMap.flatMap offsetBytes))) := by
  rw [backupConsumerOffset, appendRecords_none fun e he => offsetRecord_ok (hc.offset_length he)]
  rfl

omit hc in
theorem recoverConsumerOffset_frame {store : ClientStore} {f : Client}
    (h : recoverConsumerOffset c store = .ok f) : f.clientId = c.clientId ∧ f.subsMap = c.subsMap := by
  unfold recoverConsumerOffset at h
  split at h
  · obtain rfl := Except.ok.inj h
    exact ⟨rfl, rfl⟩
  · obtain ⟨r, -, h⟩ := bind_eq_ok.1 h
    obtain rfl := Except.ok.inj h
    exact ⟨rfl, rfl⟩

omit hc in
theorem recoverSubscribes_frame {store : ClientStore} {r : Client × Nat} (h : recoverSubscribes c store = .ok r) :
    r.1.clientId = c.clientId ∧ r.1.topicOffsetMap = c.topicOffsetMap := by
  unfold recoverSubscribes at h
  split at h
  · obtain rfl := Except.ok.inj h
    exact ⟨rfl, rfl⟩
  · obtain ⟨r, -, h⟩ := bind_eq_ok.1 h
    obtain rfl := Except.ok.inj h
    exact ⟨rfl, rfl⟩

/-- The offsets that come back from what was written. -/
theorem recoverConsumerOffset_written {store : ClientStore}
    (hget : store.get (offsetKey c.clientId) = some (c.topicOffsetMap.flatMap offsetBytes)) :
    ∃ f, recoverConsumerOffset ⟨c.clientId, [], []⟩ store = .ok f ∧
      ∀ key, f.topicOffsetMap.get key = (c.topicOffsetMap.get key).map fun n => n.bmod (2 ^ 32) := by
  have hpos : ∀ e, 0 < (offsetBytes e).length := by
    intro e
    have := length_offsetBytes e
    omega
  have hfuel := length_le_flatMap hpos c.topicOffsetMap
  have hloop := loop_readOffset (fun e he => hc.offset_length he) hfuel
  rw [recoverConsumerOffset]
  simp only
  rw [hget]
  simp only
  rw [hloop]
  refine ⟨_, rfl, fun key => ?_⟩
  rw [AssocList.get_foldl_set, AssocList.get_map fun e : Bytes × Int => e.2.bmod (2 ^ 32)]
  · simp
  · simpa [List.map_map, Function.comp_def] using hc.offsetKeys

omit hc in
/-- The subscriptions that come back are those that were written. -/
theorem recoverSubscribes_written {f : Client} (hid : f.clientId = c.clientId) (hsubs : f.subsMap = [])
    {subs : List Subscribe} (hlen : ∀ sub ∈ subs, sub.topicFilter.length ≤ 65535) {store : ClientStore}
    (hget : store.get (subsKey c.clientId) = some (subs.flatMap subsBytes)) :
    ∃ r, recoverSubscribes f store = .ok r ∧
      r.1.subsMap = (subs.map fun sub => (sub.topicFilter, readBack f sub)).foldl (fun t p => AssocList.set t p.1 p.2) [] := by
  have hpos : ∀ sub, 0 < (subsBytes sub).length := by
    intro sub
    have := length_subsBytes sub
    omega
  obtain ⟨w, hloop⟩ := loop_readSubscribe f hlen (length_le_flatMap hpos subs)
  rw [recoverSubscribes, hid, hget]
  simp only
  rw [hsubs, hloop]
  exact ⟨_, rfl, rfl⟩

end

/-! ## When the client is restored -/

theorem recoverConsumerOffset_empty_iff {c : Client} (hc : c.topicOffsetMap = []) (store : ClientStore) :
    (∃ f, recoverConsumerOffset c store = .ok f ∧ f.topicOffsetMap = []) ↔ NoRecord store (offsetKey c.clientId) := by
  rw [recoverConsumerOffset, NoRecord]
  cases store.get (offsetKey c.clientId) with
  | none => simp [hc]
  | some buff =>
    rw [Option.getD_some, ← loop_nil_iff (g := id) readOffset_ne_nil hc]
    constructor
    · rintro ⟨f, hf, hnil⟩
      obtain ⟨s, hs, hf⟩ := bind_eq_ok.1 hf
      obtain rfl := Except.ok.inj hf
      exact ⟨s, hs, hnil⟩
    · rintro ⟨s, hs, hnil⟩
      exact ⟨_, bind_eq_ok.2 ⟨s, hs, rfl⟩, hnil⟩

theorem recoverSubscribes_empty_iff {c : Client} (hc : c.subsMap = []) (store : ClientStore) :
    (∃ r, recoverSubscribes c store = .ok r ∧ r.1.subsMap = []) ↔ NoRecord store (subsKey c.clientId) := by
  rw [recoverSubscribes, NoRecord]
  cases store.get (subsKey c.clientId) with
  | none => simp [hc]
  | some buff =>
    rw [Option.getD_some, ← loop_nil_iff (g := Prod.fst) (readSubscribe_ne_nil c) (t := (c.subsMap, 0)) hc]
    constructor
    · rintro ⟨r, hr, hnil⟩
      obtain ⟨s, hs, hr⟩ := bind_eq_ok.1 hr
      obtain rfl := Except.ok.inj hr
      exact ⟨s, hs, hnil⟩
    · rintro ⟨s, hs, hnil⟩
      exact ⟨_, bind_eq_ok.2 ⟨s, hs, rfl⟩, hnil⟩

section

variable {c : Client} (hc : WF c) {store store' : ClientStore}

include hc

theorem recoverConsumerOffset_iff
    (hget : store'.get (offsetKey c.clientId) =
      (if c.topicOffsetMap = [] then none else some (c.topicOffsetMap.flatMap offsetBytes)).or
        (store.get (offsetKey c.clientId))) :
    (∃ f, recoverConsumerOffset ⟨c.clientId, [], []⟩ store' = .ok f ∧
      ∀ key, f.topicOffsetMap.get key = c.topicOffsetMap.get key) ↔
    (c.topicOffsetMap = [] → NoRecord store (offsetKey c.clientId)) ∧ ∀ e ∈ c.topicOffsetMap, e.2 < 2 ^ 31 := by
  by_cases hnil : c.topicOffsetMap = []
  · rw [hnil, if_pos rfl, Option.none_or] at hget
    have hno : NoRecord store (offsetKey c.clientId) ↔ NoRecord store' (offsetKey c.clientId) := by
      rw [NoRecord, NoRecord, hget]
    have hempty (f : Client) : (∀ key, f.topicOffsetMap.get key = AssocList.get [] key) ↔ f.topicOffsetMap = [] :=
      ⟨AssocList.eq_nil_of_get, fun h _ => by rw [h]⟩
    simp only [hnil, hempty, true_implies, List.not_mem_nil, false_implies, implies_true, and_true, hno]
    exact recoverConsumerOffset_empty_iff rfl store'
  · rw [if_neg hnil, Option.some_or] at hget
    obtain ⟨f, hf, hmap⟩ := recoverConsumerOffset_written hc hget
    rw [hf]
    constructor
    · rintro ⟨f', hf', hmap'⟩
      obtain rfl := Except.ok.inj hf'
      refine ⟨fun h => absurd h hnil, fun e he => (bmod_word (hc.offsets e he).2).1 ?_⟩
      have hg : c.topicOffsetMap.get e.1 = some e.2 := AssocList.get_of_mem hc.offsetKeys he
      have := hmap e.1
      rw [hmap', hg] at this
      exact (Option.some.inj this).symm
    · rintro ⟨-, hsmall⟩
      refine ⟨f, rfl, fun key => ?_⟩
      rw [hmap]
      cases hg : c.topicOffsetMap.get key with
      | none => rfl
      | some n =>
        have hmem := AssocList.mem_of_get hg
        exact congrArg some ((bmod_word (hc.offsets _ hmem).2).2 (hsmall _ hmem))

/-- A plain topic with an offset is written with it, and reads it back. -/
theorem readBack_min {f : Client} (hoff : ∀ key, f.topicOffsetMap.get key = c.topicOffsetMap.get key)
    (hsmall : ∀ e ∈ c.topicOffsetMap, e.2 < 2 ^ 31) {topic : Bytes} (hplain : isWild topic = false) {offset : Int}
    (hget : getConsumerOffset c topic = some offset) (hpos : 0 < offset) {s : Subscribe} (hs : s.topicFilter = topic) :
    (readBack f (withOffset c topic s)).min = offset := by
  have hmem : (0x2f :: topic, offset) ∈ c.topicOffsetMap := AssocList.mem_of_get hget
  have hback : offset.bmod (2 ^ 32) = offset := (bmod_word (hc.offsets _ hmem).2).2 (hsmall _ hmem)
  have hget' : getConsumerOffset f topic = some offset := (hoff _).trans hget
  have hwith : withOffset c topic s = { s with min := offset } := by
    simp [withOffset, hplain, hget, hpos]
  rw [hwith, readBack]
  simp only [hs, hback, recoverMin, hget', gt_iff_lt, hpos, if_true]

omit hc in
theorem withOffset_fields (topic : Bytes) (s : Subscribe) : (withOffset c topic s).topicFilter = s.topicFilter ∧
    (withOffset c topic s).qos = s.qos := by
  unfold withOffset
  split
  · exact ⟨rfl, rfl⟩
  · split
    · split
      · exact ⟨rfl, rfl⟩
      · exact ⟨rfl, rfl⟩
    · exact ⟨rfl, rfl⟩

/-- Where the filters are the keys, each subscription is read back. -/
theorem Written.get_recovered {f : Client} {subs : List Subscribe} (hw : Written c subs)
    (hown : ∀ e ∈ c.subsMap, e.2.topicFilter = e.1) (topic : Bytes) :
    AssocList.get ((subs.map fun sub => (sub.topicFilter, readBack f sub)).foldl (fun t p => AssocList.set t p.1 p.2) [])
      topic = (c.subsMap.get topic).map fun s => readBack f (withOffset c topic s) := by
  have hmap : subs.map (fun sub => (sub.topicFilter, readBack f sub)) =
      c.subsMap.map fun e => (e.1, readBack f (withOffset c e.1 e.2)) := by
    rw [hw.offsets hown, List.map_map]
    refine List.map_congr_left fun e he => ?_
    rw [Function.comp_apply, (withOffset_fields e.1 e.2).1, hown e he]
  rw [hmap, AssocList.get_foldl_set, AssocList.get_map fun e : Bytes × Subscribe => readBack f (withOffset c e.1 e.2)]
  · simp
  · simpa [List.map_map, Function.comp_def] using hc.subsKeys

/-- The keys that come back are the filters. -/
theorem Written.own_of_recovered {f : Client} {subs : List Subscribe} (hw : Written c subs)
    (hback : ∀ e ∈ c.subsMap, AssocList.get ((subs.map fun sub => (sub.topicFilter, readBack f sub)).foldl
      (fun t p => AssocList.set t p.1 p.2) []) e.1 ≠ none) :
    ∀ e ∈ c.subsMap, e.2.topicFilter = e.1 := by
  intro e he
  have hkey : e.1 ∈ (subs.map fun sub => (sub.topicFilter, readBack f sub)).map Prod.fst := by
    by_contra hnot
    exact hback e he (AssocList.get_foldl_set_of_not_mem hnot (AssocList.get_nil e.1))
  have hfilter : e.1 ∈ (subs.map fun sub => (sub.topicFilter, sub.qos)).map Prod.fst := by
    simpa [List.map_map, Function.comp_def] using hkey
  rw [hw.fields, List.map_map] at hfilter
  obtain ⟨e', he', heq⟩ := List.mem_map.1 hfilter
  exact hc.own e he e' he' heq

theorem recoverSubscribes_iff {f : Client} (hid : f.clientId = c.clientId) (hsubs : f.subsMap = [])
    (hoff : ∀ key, f.topicOffsetMap.get key = c.topicOffsetMap.get key)
    (hsmall : ∀ e ∈ c.topicOffsetMap, e.2 < 2 ^ 31) {subs : List Subscribe} (hw : Written c subs)
    (hget : store'.get (subsKey c.clientId) =
      (if subs = [] then none else some (subs.flatMap subsBytes)).or (store.get (subsKey c.clientId))) :
    (∃ r, recoverSubscribes f store' = .ok r ∧ Restored c r.1) ↔
    (c.subsMap = [] → NoRecord store (subsKey c.clientId)) ∧ (∀ e ∈ c.subsMap, e.2.topicFilter = e.1) ∧
      ∀ e ∈ c.subsMap, e.2.qos < 2 ^ 31 := by
  have hempty_iff : subs = [] ↔ c.subsMap = [] := by
    have hlen := congrArg List.length hw.fields
    simp only [List.length_map] at hlen
    rw [← List.length_eq_zero_iff, ← List.length_eq_zero_iff, hlen]
  by_cases hnil : c.subsMap = []
  · rw [hempty_iff.2 hnil, if_pos rfl, Option.none_or] at hget
    have hno : NoRecord store (subsKey c.clientId) ↔ NoRecord store' (subsKey f.clientId) := by
      rw [NoRecord, NoRecord, hid, hget]
    have hempty {r : Client × Nat} (hr : recoverSubscribes f store' = .ok r) : Restored c r.1 ↔ r.1.subsMap = [] := by
      constructor
      · intro hres
        refine AssocList.eq_nil_of_get fun topic => ?_
        simpa [hnil] using hres.subs topic
      · intro hr'
        refine ⟨?_, by simp [hr', hnil], by simp [hr']⟩
        rw [(recoverSubscribes_frame hr).2]
        exact hoff
    simp only [hnil, true_implies, List.not_mem_nil, false_implies, implies_true, and_true, hno]
    rw [← recoverSubscribes_empty_iff hsubs store']
    exact exists_congr fun r => and_congr_right hempty
  · rw [if_neg fun h => hnil (hempty_iff.1 h), Option.some_or] at hget
    obtain ⟨r, hr, hmap⟩ := recoverSubscribes_written hid hsubs (hw.filter_length hc) hget
    rw [hr]
    constructor
    · rintro ⟨r', hr', hres⟩
      obtain rfl := Except.ok.inj hr'
      have hown : ∀ e ∈ c.subsMap, e.2.topicFilter = e.1 := by
        refine Written.own_of_recovered (f := f) hc hw fun e he hnone => ?_
        have hback := hres.subs e.1
        rw [hmap, hnone, AssocList.get_of_mem hc.subsKeys he] at hback
        cases hback
      refine ⟨fun h => absurd h hnil, hown, fun e he => (bmod_word (hc.subs e he).2.2.2).1 ?_⟩
      have hback := hres.subs e.1
      rw [hmap, Written.get_recovered hc hw hown, AssocList.get_of_mem hc.subsKeys he] at hback
      have hqos := Option.some.inj hback
      simpa [readBack, (withOffset_fields (c := c) e.1 e.2).2] using hqos
    · rintro ⟨-, hown, hqos⟩
      refine ⟨r, rfl, ?_, fun topic => ?_, ?_⟩
      · rw [(recoverSubscribes_frame hr).2]
        exact hoff
      · rw [hmap, Written.get_recovered hc hw hown]
        cases hg : c.subsMap.get topic with
        | none => rfl
        | some s =>
          have hmem := AssocList.mem_of_get hg
          have hback := (bmod_word (hc.subs _ hmem).2.2.2).2 (hqos _ hmem)
          simp only [Option.map_some, readBack, (withOffset_fields (c := c) topic s).2, hback]
      · intro topic s offset hs hplain hgetc hpos
        rw [hmap, Written.get_recovered hc hw hown] at hs
        obtain ⟨s₀, hs₀, rfl⟩ := Option.map_eq_some_iff.1 hs
        exact readBack_min hc hoff hsmall hplain hgetc hpos (hown _ (AssocList.mem_of_get hs₀))

end

def oneTopic : Client := ⟨[0x63], [([0x2f, 0x61], 5)], [([0x61], ⟨[0x61], -1, 1, none⟩)]⟩

theorem wf_oneTopic : WF oneTopic where
  offsetKeys := by decide
  subsKeys := by decide
  offsets := by
    intro e he
    obtain rfl := List.mem_singleton.1 he
    exact ⟨⟨[0x61], rfl, by decide⟩, by decide⟩
  subs := by
    intro e he
    obtain rfl := List.mem_singleton.1 he
    exact ⟨by decide, by decide, by decide, by decide⟩
  own := by decide
  same := by decide

/-- The topics `a` and `b` of `auth`, with one table. -/
example : logoutLogin ⟨[0x63], [], [([0x61], ⟨[0x62], -1, 1, some 0⟩), ([0x62], ⟨[0x62], -1, 1, some 0⟩)]⟩ [] =
    .ok ⟨[0x63], [], [([0x62], ⟨[0x62], -1, 1, none⟩)]⟩ := by decide +kernel

end NgxPlus.Mqtt.Backup
