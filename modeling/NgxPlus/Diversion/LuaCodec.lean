import NgxPlus.Diversion.System

/-!
# The Lua codecs (`lib/Utility.lua`, `lib/diversion/common.lua:105-163`)

| here | there |
| --- | --- |
| `encodeUtf8`, `decodeUtf8`    | `encode_utf8`, `decode_utf8` (`Utility.lua:79-91`) |
| `luaReadUint16`, `…Uint32`    | `readUint16`, `readUint32` (`Utility.lua:105-126`) |
| `utilityMqttWriteUint16`, …   | `writeUint16`, … are the C functions through the FFI |
| `encodeRuntimeInfo`, `decodeRuntimeInfo` | `encode_runtimeInfo`, `decode_runtimeInfo` |

A Lua decoder keeps the buffer and a 1-based index; every read depends only on
`string.sub(buf, index)`, so that is the state here. The number readers hand it to C, which
reads on behind its end: the terminator, then whatever lies there (`after`).
`string.byte` behind the end is `nil`, and arithmetic on it raises. A host table is iterated
twice by `pairs` without a change between, so it is a list of distinct keys.

`runtimeInfo_roundtrip_iff`: the three codecs agree on a message exactly when none of its
strings has 65535 bytes. That length `encode_utf8` writes and `decode_utf8` reads, but
`utility_mqtt_read_string` takes for its error value.
-/

namespace NgxPlus.Diversion

open ByteMem Decode

/-- How a script ends early. -/
inductive LuaError
  /-- `bad argument #1 to 'char' (value out of range)`. -/
  | charRange
  /-- `attempt to perform arithmetic on a nil value`. -/
  | arithNil
  /-- `attempt to call a nil value`. -/
  | callNil
  /-- `ngx.exit`. -/
  | exit (code : Nat)
  /-- `return nil`, also from inside a loop. -/
  | returnNil
deriving DecidableEq, Repr

/-! ## Strings and numbers -/

/-- `string.char` takes 0 to 255. -/
def encodeUtf8 (input : Bytes) : Except LuaError Bytes :=
  if input.length / 256 ≤ 255 then
    .ok (UInt8.ofNat (input.length / 256) :: UInt8.ofNat (input.length % 256) :: input)
  else .error .charRange

/-- The index moves by the length announced, which may be more than what is left. -/
def decodeUtf8 : Bytes → Except LuaError (Bytes × Bytes)
  | b0 :: b1 :: bs =>
    let len := b0.toNat * 256 + b1.toNat
    .ok (bs.take len, bs.drop len)
  | _ => .error .arithNil

/-- What lies in memory behind a Lua string and its terminator. -/
abbrev Behind := Bytes → Mem

/-- The memory `ffi.C` sees for a string. -/
def luaMem (after : Behind) (bs : Bytes) : Mem := bs ++ₛ Stream'.cons 0 (after bs)

def luaReadUint16 (after : Behind) (bs : Bytes) : Nat × Bytes :=
  (utilityMqttReadUint16 (luaMem after bs) 2, bs.drop 2)

def luaReadUint32 (after : Behind) (bs : Bytes) : Nat × Bytes :=
  (utilityMqttReadUint32 (luaMem after bs), bs.drop 4)

theorem encodeUtf8_ok {b : Bytes} (h : b.length ≤ 65535) :
    encodeUtf8 b = .ok (utilityMqttWriteUint16 b.length ++ b) := by
  have hlt : b.length / 256 ≤ 255 := by omega
  have hmod : UInt8.ofNat (b.length % 256) = UInt8.ofNat b.length :=
    UInt8.toNat_inj.1 (by simp)
  rw [encodeUtf8, if_pos hlt, writeUint16_eq_toBe]
  simp [toBe, hmod]

theorem encodeUtf8_eq_ok {b out : Bytes} (h : encodeUtf8 b = .ok out) :
    b.length ≤ 65535 ∧ out = utilityMqttWriteUint16 b.length ++ b := by
  by_cases hb : b.length ≤ 65535
  · rw [encodeUtf8_ok hb] at h
    exact ⟨hb, (Except.ok.inj h).symm⟩
  · rw [encodeUtf8, if_neg (by omega)] at h
    simp at h

/-- Up to 65535 bytes, a Lua string reads back in Lua. -/
theorem decodeUtf8_write {b : Bytes} (h : b.length ≤ 65535) (rest : Bytes) :
    decodeUtf8 (utilityMqttWriteUint16 b.length ++ b ++ rest) = .ok (b, rest) := by
  have hlen : b.length / 256 % 256 * 256 + b.length % 256 = b.length := by omega
  rw [writeUint16_eq_toBe]
  simp [toBe, decodeUtf8, hlen]

theorem luaReadUint16_write (after : Behind) (n : Nat) (rest : Bytes) :
    luaReadUint16 after (utilityMqttWriteUint16 n ++ rest) = (n % 2 ^ 16, rest) := by
  rw [luaReadUint16, luaMem, Stream'.append_append_stream, readUint16_write _ _ (le_refl 2)]
  rfl

theorem luaReadUint32_write (after : Behind) (n : Nat) (rest : Bytes) :
    luaReadUint32 after (utilityMqttWriteUint32 n ++ rest) = (n % 2 ^ 32, rest) := by
  rw [luaReadUint32, luaMem, Stream'.append_append_stream, readUint32_write]
  rfl

/-! ## Runtime info -/

structure LuaRuntimeInfo where
  status : Nat
  ver : Nat
  fid : Nat
  src : Option Bytes
  to_ : Option Bytes
deriving DecidableEq, Repr

/-- A host table in the order of `pairs`. -/
abbrev LuaHosts := List (Bytes × Bytes)

def encodeHosts : LuaHosts → Except LuaError Bytes
  | [] => .ok []
  | (e, h) :: hosts => do
    let e ← encodeUtf8 e
    let h ← encodeUtf8 h
    let buf ← encodeHosts hosts
    return e ++ h ++ buf

def encodeRuntimeInfo (runtimeInfo : LuaRuntimeInfo) (diversionHost : Option LuaHosts) :
    Except LuaError Bytes := do
  let src ← encodeUtf8 (runtimeInfo.src.getD [])
  let to_ ← encodeUtf8 (runtimeInfo.to_.getD [])
  let buf := utilityMqttWriteUint16 runtimeInfo.status ++ utilityMqttWriteUint32 runtimeInfo.ver ++
    src ++ to_ ++ utilityMqttWriteUint32 runtimeInfo.fid
  match diversionHost with
  | none => return buf ++ utilityMqttWriteUint16 0
  | some hosts => do
    let entries ← encodeHosts hosts
    return buf ++ utilityMqttWriteUint16 hosts.length ++ entries

/-- A table with string keys. -/
abbrev LuaTable := Bytes → Option Bytes

/-- `t[key]=val`. -/
def tableSet (t : LuaTable) (h : Bytes × Bytes) : LuaTable := Function.update t h.1 (some h.2)

/-- `diversionHost[key]=val` for each pair. -/
def tableOf (hosts : LuaHosts) : LuaTable := hosts.foldl tableSet fun _ => none

def decodeHost (bs : Bytes) : Except LuaError ((Bytes × Bytes) × Bytes) := do
  let (key, bs) ← decodeUtf8 bs
  let (val, bs) ← decodeUtf8 bs
  return ((key, val), bs)

def decodeRuntimeInfo (after : Behind) (runtimeInfoBuf : Bytes) :
    Except LuaError (LuaRuntimeInfo × LuaTable) := do
  let (status, bs) := luaReadUint16 after runtimeInfoBuf
  let (ver, bs) := luaReadUint32 after bs
  let (src, bs) ← decodeUtf8 bs
  let (to_, bs) ← decodeUtf8 bs
  let (fid, bs) := luaReadUint32 after bs
  let (vhlen, bs) := luaReadUint16 after bs
  let (hosts, _) ← times decodeHost vhlen bs
  return (⟨status, ver, fid, some src, some to_⟩, tableOf hosts.1)

/-! ## What the encoder writes -/

/-- A string behind its length. -/
def utf8Bytes (b : Bytes) : Bytes := utilityMqttWriteUint16 b.length ++ b

def hostBytes (h : Bytes × Bytes) : Bytes := utf8Bytes h.1 ++ utf8Bytes h.2

/-- Everything behind status and version. -/
def bodyBytes (src to_ : Bytes) (fid : Nat) (hosts : LuaHosts) : Bytes :=
  utf8Bytes src ++ (utf8Bytes to_ ++ (utilityMqttWriteUint32 fid ++
    (utilityMqttWriteUint16 hosts.length ++ hosts.flatMap hostBytes)))

/-- All strings of a message. -/
def stringsOf (runtimeInfo : LuaRuntimeInfo) (diversionHost : Option LuaHosts) : List Bytes :=
  runtimeInfo.src.getD [] :: runtimeInfo.to_.getD [] ::
    (diversionHost.getD []).flatMap fun h => [h.1, h.2]

theorem forall_stringsOf {P : Bytes → Prop} {ri : LuaRuntimeInfo} {dh : Option LuaHosts} :
    (∀ b ∈ stringsOf ri dh, P b) ↔
      P (ri.src.getD []) ∧ P (ri.to_.getD []) ∧ ∀ h ∈ dh.getD [], P h.1 ∧ P h.2 := by
  rw [stringsOf, List.forall_mem_cons, List.forall_mem_cons]
  refine and_congr_right fun _ => and_congr_right fun _ => ?_
  constructor
  · intro h x hx
    exact ⟨h _ (List.mem_flatMap.2 ⟨x, hx, by simp⟩), h _ (List.mem_flatMap.2 ⟨x, hx, by simp⟩)⟩
  · intro h b hb
    obtain ⟨x, hx, hb⟩ := List.mem_flatMap.1 hb
    rcases List.mem_pair.1 hb with rfl | rfl
    · exact (h x hx).1
    · exact (h x hx).2

theorem encodeHosts_ok {hosts : LuaHosts} (h : ∀ x ∈ hosts, x.1.length ≤ 65535 ∧ x.2.length ≤ 65535) :
    encodeHosts hosts = .ok (hosts.flatMap hostBytes) := by
  induction hosts with
  | nil => rfl
  | cons x hosts ih =>
    obtain ⟨hk, hv⟩ := h x List.mem_cons_self
    rw [encodeHosts, encodeUtf8_ok hk, encodeUtf8_ok hv, ih fun y hy => h y (List.mem_cons_of_mem _ hy)]
    simp [hostBytes, utf8Bytes, pure, Except.pure]

theorem encodeRuntimeInfo_ok {ri : LuaRuntimeInfo} {dh : Option LuaHosts}
    (h : ∀ b ∈ stringsOf ri dh, b.length ≤ 65535) :
    encodeRuntimeInfo ri dh = .ok (utilityMqttWriteUint16 ri.status ++ (utilityMqttWriteUint32 ri.ver ++
      bodyBytes (ri.src.getD []) (ri.to_.getD []) ri.fid (dh.getD []))) := by
  obtain ⟨hs, ht, hh⟩ := forall_stringsOf.1 h
  rw [encodeRuntimeInfo, encodeUtf8_ok hs, encodeUtf8_ok ht]
  cases dh with
  | none => simp [bodyBytes, utf8Bytes, pure, Except.pure]
  | some hosts =>
    rw [Option.getD_some] at hh
    simp [encodeHosts_ok hh, bodyBytes, utf8Bytes, pure, Except.pure]

/-! ## The C decoder on it -/

theorem readString_utf8 {b : Bytes} (hb : b.length < 65535) (bs : Bytes) (m : Mem) :
    (Dec.full (utf8Bytes b ++ bs) m).readString = .ok (b, Dec.full bs m) :=
  Dec.readString_write hb bs m _

theorem readString_utf8_max {b : Bytes} (hb : b.length = 65535) (bs : Bytes) (m : Mem) :
    (Dec.full (utf8Bytes b ++ bs) m).readString = .error .error := by
  rw [utf8Bytes, List.append_assoc]
  exact Dec.readString_max (by rw [hb]; decide) _ m _

/-- A string that was read is the one written, and has fewer than 65535 bytes. -/
theorem readString_utf8_eq_ok {b : Bytes} (hle : b.length ≤ 65535) {bs : Bytes} {m : Mem} {x : Bytes}
    {d : Dec} (h : (Dec.full (utf8Bytes b ++ bs) m).readString = .ok (x, d)) :
    b.length < 65535 ∧ x = b ∧ d = Dec.full bs m := by
  by_cases hb : b.length < 65535
  · rw [readString_utf8 hb] at h
    obtain ⟨rfl, rfl⟩ := Prod.mk.inj (Except.ok.inj h)
    exact ⟨hb, rfl, rfl⟩
  · rw [readString_utf8_max (by omega)] at h
    simp at h

def ShortHost (h : Bytes × Bytes) : Prop := h.1.length < 65535 ∧ h.2.length < 65535

theorem readEnvhost_short {h : Bytes × Bytes} (hs : ShortHost h) (bs : Bytes) (m : Mem) :
    readEnvhost (Dec.full (hostBytes h ++ bs) m) = .ok (⟨h.1, h.2⟩, Dec.full bs m) := by
  rw [readEnvhost, hostBytes, List.append_assoc, readString_utf8 hs.1]
  simp only [ok_bind]
  rw [readString_utf8 hs.2]
  rfl

theorem readEnvhost_long {h : Bytes × Bytes} (hk : h.1.length ≤ 65535) (hv : h.2.length ≤ 65535)
    (hs : ¬ ShortHost h) (bs : Bytes) (m : Mem) :
    ∃ e, readEnvhost (Dec.full (hostBytes h ++ bs) m) = .error e := by
  rw [readEnvhost, hostBytes, List.append_assoc]
  by_cases h1 : h.1.length < 65535
  · have h2 : h.2.length = 65535 := by
      by_contra hne
      exact hs ⟨h1, by omega⟩
    refine ⟨.error, ?_⟩
    rw [readString_utf8 h1]
    simp only [ok_bind]
    rw [readString_utf8_max h2]
    rfl
  · refine ⟨.error, ?_⟩
    rw [readString_utf8_max (by omega)]
    rfl

/-- The host table reads back, and is read at all, exactly when its strings are short. -/
theorem readEnvhosts_iff {hosts : LuaHosts}
    (hle : ∀ h ∈ hosts, h.1.length ≤ 65535 ∧ h.2.length ≤ 65535) (m : Mem) :
    ((∃ r, readEnvhosts hosts.length (Dec.full (hosts.flatMap hostBytes) m) = .ok r) ↔
      ∀ h ∈ hosts, ShortHost h) ∧
    ((∀ h ∈ hosts, ShortHost h) →
      readEnvhosts hosts.length (Dec.full (hosts.flatMap hostBytes) m) =
        .ok (hosts.map fun h => ⟨h.1, h.2⟩, Dec.full [] m)) := by
  have hgood : ∀ (_ : Unit) (h : Bytes × Bytes) (rest : Bytes), True → ShortHost h →
      readEnvhost (Dec.full (hostBytes h ++ rest) m) = .ok (⟨h.1, h.2⟩, Dec.full rest m) :=
    fun _ h rest _ hs => readEnvhost_short hs rest m
  have hok : (∀ h ∈ hosts, ShortHost h) →
      readEnvhosts hosts.length (Dec.full (hosts.flatMap hostBytes) m) =
        .ok (hosts.map fun h => ⟨h.1, h.2⟩, Dec.full [] m) := by
    intro hs
    have ht := times_encoded_map (S := fun (_ : Unit) bs => Dec.full bs m) (N := fun a _ => a)
      (I := fun _ => True) (fun _ _ h => h) hgood hs (a := ()) trivial []
    rw [List.append_nil] at ht
    rw [readEnvhosts]
    split
    · rw [Dec.slabAlloc_full, ok_bind, ht]
      rfl
    · have : hosts = [] := List.length_eq_zero_iff.1 (by omega)
      subst this
      rfl
  refine ⟨⟨?_, fun hs => ⟨_, hok hs⟩⟩, hok⟩
  rintro ⟨r, hr⟩
  rw [readEnvhosts] at hr
  split at hr
  · rw [Dec.slabAlloc_full, ok_bind] at hr
    obtain ⟨r', hr', -⟩ := bind_eq_ok.1 hr
    rw [← List.append_nil (hosts.flatMap hostBytes)] at hr'
    refine forall_of_times_ok (S := fun (_ : Unit) bs => Dec.full bs m) (N := fun a _ => a)
      (I := fun _ => True) (a := ()) (fun _ _ h => h) hgood ?_ trivial hr'
    intro _ h hmem rest _ hs
    exact readEnvhost_long (hle h hmem).1 (hle h hmem).2 hs rest m
  · have : hosts = [] := List.length_eq_zero_iff.1 (by omega)
    simp [this]

/-- Behind two short strings everything is fixed but the hosts. -/
theorem readRuntimeBody_eq {src to_ : Bytes} {fid : Nat} {hosts : LuaHosts} (hs : src.length < 65535)
    (ht : to_.length < 65535) (hf : fid < 2 ^ 32) (hn : hosts.length ≤ 65535) (m : Mem) :
    readRuntimeBody (Dec.full (bodyBytes src to_ fid hosts) m) =
      (readEnvhosts hosts.length (Dec.full (hosts.flatMap hostBytes) m)).map
        fun r => (⟨src, to_, fid, r.1⟩, r.2) := by
  rw [readRuntimeBody, bodyBytes, readString_utf8 hs, ok_bind]
  simp only
  rw [readString_utf8 ht, ok_bind]
  simp only
  rw [Dec.readUint32_write, Nat.mod_eq_of_lt hf]
  simp only
  rw [Dec.readUint16_write, Nat.mod_eq_of_lt (by omega)]
  simp only
  cases readEnvhosts hosts.length (Dec.full (hosts.flatMap hostBytes) m) <;> rfl

theorem readRuntimeBody_iff {src to_ : Bytes} {fid : Nat} {hosts : LuaHosts}
    (hs : src.length ≤ 65535) (ht : to_.length ≤ 65535) (hf : fid < 2 ^ 32)
    (hn : hosts.length ≤ 65535) (hle : ∀ h ∈ hosts, h.1.length ≤ 65535 ∧ h.2.length ≤ 65535)
    (m : Mem) :
    (∃ r, readRuntimeBody (Dec.full (bodyBytes src to_ fid hosts) m) = .ok r) ↔
      src.length < 65535 ∧ to_.length < 65535 ∧ ∀ h ∈ hosts, ShortHost h := by
  by_cases hs' : src.length < 65535
  · by_cases ht' : to_.length < 65535
    · rw [readRuntimeBody_eq hs' ht' hf hn, ← (readEnvhosts_iff hle m).1]
      cases readEnvhosts hosts.length (Dec.full (hosts.flatMap hostBytes) m) with
      | error e => simp [Except.map]
      | ok r => simp [Except.map, hs', ht']
    · refine iff_of_false ?_ (fun h => ht' h.2.1)
      rintro ⟨r, hr⟩
      rw [readRuntimeBody, bodyBytes, readString_utf8 hs', ok_bind] at hr
      simp only at hr
      rw [readString_utf8_max (by omega)] at hr
      simp at hr
  · refine iff_of_false ?_ (fun h => hs' h.1)
    rintro ⟨r, hr⟩
    rw [readRuntimeBody, bodyBytes, readString_utf8_max (by omega)] at hr
    simp at hr

/-- What the claim is about: a configuration the encoder can represent, newer than the stored
one, with nobody reading. -/
structure Sendable (s : Shm) (ri : LuaRuntimeInfo) (dh : Option LuaHosts) : Prop where
  status : ri.status = 0 ∨ ri.status = 1 ∨ ri.status = 3
  newer : s.version < ri.ver
  ver : ri.ver < 2 ^ 32
  fid : ri.fid < 2 ^ 32
  hosts : (dh.getD []).length ≤ 65535
  keys : ((dh.getD []).map Prod.fst).Nodup
  strings : ∀ b ∈ stringsOf ri dh, b.length ≤ 65535
  lock : s.lock = 0

/-- The stored state is what was sent; an absent string is stored as the empty one. -/
structure StoresRuntime (s : Shm) (ri : LuaRuntimeInfo) (dh : Option LuaHosts) : Prop where
  status : s.status = ri.status
  version : s.version = ri.ver
  id : s.id = ri.fid
  src : s.src.deref = some (ri.src.getD [])
  to_ : s.to_.deref = some (ri.to_.getD [])
  envhosts : s.envhosts = (dh.getD []).map fun h => ⟨h.1, h.2⟩

/-- The encoder's message is accepted by the C decoder, which stores what was sent, and the
Lua decoder returns it. -/
def RuntimeRoundTrip (s : Shm) (ri : LuaRuntimeInfo) (dh : Option LuaHosts) (after : Mem)
    (behind : Behind) : Prop :=
  ∃ buf, encodeRuntimeInfo ri dh = .ok buf ∧
    (diversionDecodeRuntimeinfo s (.full buf after)).1 = .ok ∧
    StoresRuntime (diversionDecodeRuntimeinfo s (.full buf after)).2 ri dh ∧
    decodeRuntimeInfo behind buf =
      .ok (⟨ri.status, ri.ver, ri.fid, some (ri.src.getD []), some (ri.to_.getD [])⟩,
        fun k => (dh.getD []).lookup k)

/-- A newer message is installed if its body is read, and refused otherwise. -/
theorem decodeRuntimeinfo_full {s : Shm} {status ver : Nat} (hst : status = 0 ∨ status = 1 ∨ status = 3)
    (hnew : s.version < ver) (hver : ver < 2 ^ 32) (hl : s.lock = 0) (body : Bytes) (m : Mem) :
    diversionDecodeRuntimeinfo s
        (.full (utilityMqttWriteUint16 status ++ (utilityMqttWriteUint32 ver ++ body)) m) =
      match readRuntimeBody (.full body m) with
      | .error _ => (.error, freeDiversionEnvhosts (makeRoom s))
      | .ok (b, d) => (.ok, installRuntime (makeRoom s) status ver b d) := by
  have h16 := Dec.readUint16_write status (utilityMqttWriteUint32 ver ++ body) m (Stream'.const true)
  have h32 := Dec.readUint32_write ver body m (Stream'.const true)
  rw [Nat.mod_eq_of_lt hver] at h32
  rw [Nat.mod_eq_of_lt (by omega)] at h16
  have hgate : runtimeGate s status ver = .replace := by
    rw [runtimeGate, if_neg (by omega), if_neg (by omega), if_neg (by omega)]
  have hlock : ¬ s.lock > 0 := by rw [hl]; decide
  have hlock' : ¬ (makeRoom s).lock > 0 := by rw [lock_makeRoom]; exact hlock
  cases hb : readRuntimeBody (.full body m) with
  | error e =>
    simp only [diversionDecodeRuntimeinfo, msgStatus, msgVersion, msgBody, h16, h32, hgate, hlock,
      and_false, if_false, finishRuntimeinfo, hlock', hb]
  | ok r =>
    simp only [diversionDecodeRuntimeinfo, msgStatus, msgVersion, msgBody, h16, h32, hgate, hlock,
      and_false, if_false, finishRuntimeinfo, hlock', hb]

theorem deref_storeStr_full (old : NgxStr) (b bs : Bytes) (m : Mem) :
    (storeStr old b (.full bs m)).1.deref = some b ∧ (storeStr old b (.full bs m)).2 = .full bs m := by
  unfold storeStr
  split
  · rw [Dec.strdup_full]
    exact ⟨deref_of b, rfl⟩
  · have hb : b = [] := List.length_eq_zero_iff.1 (by omega)
    subst hb
    exact ⟨rfl, rfl⟩

/-- The C decoder accepts exactly the messages whose strings are all below 65535 bytes, and
stores what was sent. -/
theorem decodeRuntimeinfo_sendable {s : Shm} {ri : LuaRuntimeInfo} {dh : Option LuaHosts}
    (h : Sendable s ri dh) {buf : Bytes} (he : encodeRuntimeInfo ri dh = .ok buf) (after : Mem) :
    ((diversionDecodeRuntimeinfo s (.full buf after)).1 = .ok ↔
      ∀ b ∈ stringsOf ri dh, b.length < 65535) ∧
    ((∀ b ∈ stringsOf ri dh, b.length < 65535) →
      StoresRuntime (diversionDecodeRuntimeinfo s (.full buf after)).2 ri dh) := by
  rw [encodeRuntimeInfo_ok h.strings] at he
  obtain rfl := Except.ok.inj he
  obtain ⟨hs, ht, hh⟩ := forall_stringsOf.1 h.strings
  rw [decodeRuntimeinfo_full h.status h.newer h.ver h.lock, forall_stringsOf]
  have hiff := readRuntimeBody_iff hs ht h.fid h.hosts hh after
  constructor
  · refine Iff.trans ?_ hiff
    cases readRuntimeBody (Dec.full (bodyBytes (ri.src.getD []) (ri.to_.getD []) ri.fid (dh.getD [])) after) with
    | error e => simp
    | ok r => simp
  · rintro ⟨hs', ht', hh'⟩
    rw [readRuntimeBody_eq hs' ht' h.fid h.hosts, (readEnvhosts_iff hh after).2 hh']
    have hst : toInt16 ri.status = ri.status := by
      rcases h.status with h' | h' | h' <;> rw [h'] <;> rfl
    obtain ⟨hsrc, hd⟩ := deref_storeStr_full (makeRoom s).src (ri.src.getD []) [] after
    obtain ⟨hto, -⟩ := deref_storeStr_full (makeRoom s).to_ (ri.to_.getD []) [] after
    refine ⟨hst, rfl, rfl, hsrc, ?_, rfl⟩
    show (storeStr _ _ (storeStr _ _ _).2).1.deref = _
    rw [hd]
    exact hto

/-! ## The Lua decoder on it -/

theorem foldl_tableSet {hosts : LuaHosts} (h : (hosts.map Prod.fst).Nodup) (t : LuaTable) :
    hosts.foldl tableSet t = fun k => (hosts.lookup k).or (t k) := by
  induction hosts generalizing t with
  | nil => rfl
  | cons x hosts ih =>
    obtain ⟨key, value⟩ := x
    obtain ⟨hx, hnd⟩ := List.nodup_cons.1 h
    rw [List.foldl_cons, ih hnd]
    funext k
    by_cases hk : k = key
    · have hnone : hosts.lookup k = none := by
        rw [List.lookup_eq_none_iff]
        intro p hp
        rw [hk, bne_iff_ne]
        intro heq
        exact hx (List.mem_map.2 ⟨p, hp, heq.symm⟩)
      rw [hnone, hk, tableSet, Function.update_self]
      simp [List.lookup_cons_self]
    · rw [tableSet, Function.update_of_ne hk]
      simp [List.lookup_cons, beq_false_of_ne hk]

theorem tableOf_eq_lookup {hosts : LuaHosts} (h : (hosts.map Prod.fst).Nodup) :
    tableOf hosts = fun k => hosts.lookup k := by
  rw [tableOf, foldl_tableSet h]
  funext k
  simp

theorem decodeUtf8_utf8 {b : Bytes} (h : b.length ≤ 65535) (rest : Bytes) :
    decodeUtf8 (utf8Bytes b ++ rest) = .ok (b, rest) :=
  decodeUtf8_write h rest

theorem decodeHosts_ok {hosts : LuaHosts}
    (h : ∀ x ∈ hosts, x.1.length ≤ 65535 ∧ x.2.length ≤ 65535) :
    times decodeHost hosts.length (hosts.flatMap hostBytes) =
      .ok (⟨hosts.map id, List.length_map _⟩, []) := by
  have hgood : ∀ (_ : Unit) (x : Bytes × Bytes) (rest : Bytes), True →
      x.1.length ≤ 65535 ∧ x.2.length ≤ 65535 → decodeHost (hostBytes x ++ rest) = .ok (id x, rest) := by
    intro _ x rest _ hx
    rw [decodeHost, hostBytes, List.append_assoc, decodeUtf8_utf8 hx.1, ok_bind]
    simp only
    rw [decodeUtf8_utf8 hx.2]
    rfl
  have ht := times_encoded_map (S := fun (_ : Unit) bs => bs) (N := fun a _ => a) (I := fun _ => True)
    (fun _ _ h => h) hgood h (a := ()) trivial []
  rwa [List.append_nil] at ht

/-- Lua reads back everything it can write. -/
theorem decodeRuntimeInfo_encode {s : Shm} {ri : LuaRuntimeInfo} {dh : Option LuaHosts}
    (h : Sendable s ri dh) {buf : Bytes} (he : encodeRuntimeInfo ri dh = .ok buf) (behind : Behind) :
    decodeRuntimeInfo behind buf =
      .ok (⟨ri.status, ri.ver, ri.fid, some (ri.src.getD []), some (ri.to_.getD [])⟩,
        fun k => (dh.getD []).lookup k) := by
  rw [encodeRuntimeInfo_ok h.strings] at he
  obtain rfl := Except.ok.inj he
  obtain ⟨hs, ht, hh⟩ := forall_stringsOf.1 h.strings
  have hstat : ri.status % 2 ^ 16 = ri.status := by
    rcases h.status with h' | h' | h' <;> rw [h'] <;> rfl
  have hn : (dh.getD []).length % 2 ^ 16 = (dh.getD []).length := Nat.mod_eq_of_lt (by have := h.hosts; omega)
  rw [decodeRuntimeInfo, luaReadUint16_write]
  simp only
  rw [luaReadUint32_write, bodyBytes]
  simp only
  rw [decodeUtf8_utf8 hs, ok_bind]
  simp only
  rw [decodeUtf8_utf8 ht, ok_bind]
  simp only
  rw [luaReadUint32_write]
  simp only
  rw [luaReadUint16_write, hn, decodeHosts_ok hh, ok_bind]
  simp only [List.map_id, tableOf_eq_lookup h.keys, hstat, Nat.mod_eq_of_lt h.ver, Nat.mod_eq_of_lt h.fid]
  rfl

/-- **Round trip of runtime info**: the three codecs agree exactly when no string has the length
that the C reader takes for an error. -/
theorem runtimeInfo_roundtrip_iff {s : Shm} {ri : LuaRuntimeInfo} {dh : Option LuaHosts}
    (h : Sendable s ri dh) (after : Mem) (behind : Behind) :
    RuntimeRoundTrip s ri dh after behind ↔ ∀ b ∈ stringsOf ri dh, b.length < 65535 := by
  constructor
  · rintro ⟨buf, he, hok, -⟩
    exact (decodeRuntimeinfo_sendable h he after).1.1 hok
  · intro hshort
    have he := encodeRuntimeInfo_ok h.strings
    obtain ⟨hiff, hst⟩ := decodeRuntimeinfo_sendable h he after
    exact ⟨_, he, hiff.2 hshort, hst hshort, decodeRuntimeInfo_encode h he behind⟩

/-- A message with the source `src` and one host. -/
def srcInfo (src : Bytes) : LuaRuntimeInfo := ⟨1, 5, 7, some src, none⟩

def oneHost : Option LuaHosts := some [(ascii ['p', 'r', 'e'], ascii ['1', '0', '.', '1'])]

theorem sendable_srcInfo {src : Bytes} (h : src.length ≤ 65535) :
    Sendable (initialState false) (srcInfo src) oneHost := by
  have hv : (initialState false).version < 5 := by decide
  refine ⟨Or.inr (Or.inl rfl), hv, by simp [srcInfo], by simp [srcInfo], by decide, by decide, ?_, rfl⟩
  rw [forall_stringsOf]
  exact ⟨h, Nat.zero_le _, by decide⟩

theorem runtimeInfo_roundtrip_short :
    RuntimeRoundTrip (initialState false) (srcInfo (ascii ['d', 'e', 'v'])) oneHost (Stream'.const 0)
      (fun _ => Stream'.const 0) := by
  refine (runtimeInfo_roundtrip_iff (sendable_srcInfo (by decide)) _ _).2 ?_
  rw [forall_stringsOf]
  decide

/-- A source of 65535 bytes is encoded, and refused by the C decoder. -/
theorem runtimeInfo_roundtrip_sentinel :
    Sendable (initialState false) (srcInfo (List.replicate 65535 97)) oneHost ∧
    ¬ RuntimeRoundTrip (initialState false) (srcInfo (List.replicate 65535 97)) oneHost (Stream'.const 0)
      (fun _ => Stream'.const 0) := by
  have hs : Sendable (initialState false) (srcInfo (List.replicate 65535 97)) oneHost :=
    sendable_srcInfo (by rw [List.length_replicate])
  refine ⟨hs, ?_⟩
  rintro ⟨buf, he, hok, -⟩
  have hshort := forall_stringsOf.1 ((decodeRuntimeinfo_sendable hs he _).1.1 hok)
  have hlen : (List.replicate 65535 (97 : UInt8)).length < 65535 := hshort.1
  rw [List.length_replicate] at hlen
  omega

end NgxPlus.Diversion
