import NgxPlus.Lib.Decode
import NgxPlus.Diversion.Types

/-!
# Runtime messages: `diversion_decode_runtimeinfo` (`ngx_lua_diversion_module.cpp:1224-1371`)

| here | there |
| --- | --- |
| `Dec`, `Dec.adv`            | `p += n; plen -= n;` and the allocator's answers to come |
| `readEnvhost`, `readRuntimeBody` | `.cpp:1291-1350`: everything behind status and version |
| `runtimeGate`               | the three tests of `.cpp:1250-1258` |
| `makeRoom`                  | `.cpp:1260-1280`: drop the stored configuration |
| `finishRuntimeinfo`         | `.cpp:1282-1366` |
| `updateRuntimeinfo`         | `update_runtimeinfo` (`.cpp:737-757`) |

`RuntimeOutcome` lists everything a call can do to the shared state;
`diversionDecodeRuntimeinfo_outcome` is the only lemma about the function that the
invariants use.
-/

namespace NgxPlus.Diversion

open ByteMem Decode

/-! ## Cursors -/

/-- Pointer and remaining length of a decoder, and whether each allocation to come
succeeds. -/
structure Dec where
  p : Mem
  plen : Nat
  slab : Stream' Bool

namespace Dec

def adv (d : Dec) (n : Nat) : Dec := { d with p := d.p.drop n, plen := sizeSub d.plen n }

def readUint16 (d : Dec) : Nat × Dec := (utilityMqttReadUint16 d.p d.plen, d.adv 2)

def readUint32 (d : Dec) : Nat × Dec := (utilityMqttReadUint32 d.p, d.adv 4)

def readUint64 (d : Dec) : Nat × Dec := (utilityMqttReadUint64 d.p, d.adv 8)

/-- `rc = utility_mqtt_read_string(p, plen, &out); if (rc == NGX_ERROR) goto failure;`. -/
def readString (d : Dec) : Except Rc (Bytes × Dec) :=
  match utilityMqttReadString d.p d.plen with
  | none => .error .error
  | some (b, n) => .ok (b, d.adv n)

/-- `ngx_slab_alloc` with `goto failure` on NULL. -/
def slabAlloc (d : Dec) : Except Rc Dec :=
  if d.slab.head then .ok { d with slab := d.slab.tail } else .error .error

/-- `ngx_shmpool_strdup`; the result is not tested. -/
def strdup (b : Bytes) (d : Dec) : NgxStr × Dec :=
  (⟨b.length, if d.slab.head then some b else none⟩, { d with slab := d.slab.tail })

/-- The buffer `bs`, `after` behind it in memory. -/
def ofBuf (bs : Bytes) (after : Mem) (slab : Stream' Bool) : Dec := ⟨bs ++ₛ after, bs.length, slab⟩

theorem adv_append (b bs : Bytes) (m : Mem) (slab : Stream' Bool) :
    (ofBuf (b ++ bs) m slab).adv b.length = ofBuf bs m slab := by
  simp only [ofBuf, adv, List.length_append, sizeSub_add_left, Stream'.append_append_stream]
  rw [drop_append_of_eq b _ rfl]

theorem readUint16_write (n : Nat) (bs : Bytes) (m : Mem) (slab : Stream' Bool) :
    (ofBuf (utilityMqttWriteUint16 n ++ bs) m slab).readUint16 = (n % 2 ^ 16, ofBuf bs m slab) := by
  have h : utilityMqttReadUint16 (utilityMqttWriteUint16 n ++ bs ++ₛ m)
      (utilityMqttWriteUint16 n ++ bs).length = n % 2 ^ 16 := by
    rw [Stream'.append_append_stream, NgxPlus.readUint16_write _ _ (by simp)]
  exact Prod.ext h (adv_append _ bs m slab)

theorem readUint32_write (n : Nat) (bs : Bytes) (m : Mem) (slab : Stream' Bool) :
    (ofBuf (utilityMqttWriteUint32 n ++ bs) m slab).readUint32 = (n % 2 ^ 32, ofBuf bs m slab) := by
  refine Prod.ext ?_ (adv_append _ bs m slab)
  show utilityMqttReadUint32 _ = _
  rw [ofBuf, Stream'.append_append_stream, NgxPlus.readUint32_write]

theorem readUint64_write (n : Nat) (bs : Bytes) (m : Mem) (slab : Stream' Bool) :
    (ofBuf (utilityMqttWriteUint64 n ++ bs) m slab).readUint64 = (n % 2 ^ 64, ofBuf bs m slab) := by
  refine Prod.ext ?_ (adv_append _ bs m slab)
  show utilityMqttReadUint64 _ = _
  rw [ofBuf, Stream'.append_append_stream, NgxPlus.readUint64_write]

theorem readString_write {b : Bytes} (hb : b.length < 65535) (bs : Bytes) (m : Mem)
    (slab : Stream' Bool) :
    (ofBuf (utilityMqttWriteUint16 b.length ++ b ++ bs) m slab).readString =
      .ok (b, ofBuf bs m slab) := by
  have h : utilityMqttReadString (utilityMqttWriteUint16 b.length ++ b ++ bs ++ₛ m)
      (utilityMqttWriteUint16 b.length ++ b ++ bs).length = some (b, 2 + b.length) := by
    rw [Stream'.append_append_stream]
    exact NgxPlus.readString_write b _ hb (by simp only [List.length_append, length_writeUint16]; omega)
  have ha := adv_append (utilityMqttWriteUint16 b.length ++ b) bs m slab
  rw [List.length_append, length_writeUint16] at ha
  rw [readString, ofBuf, h]
  exact congrArg (fun d => Except.ok (b, d)) ha

/-- A length field of 65535 is refused, whatever follows. -/
theorem readString_max {n : Nat} (hn : n % 2 ^ 16 = 65535) (bs : Bytes) (m : Mem)
    (slab : Stream' Bool) :
    (ofBuf (utilityMqttWriteUint16 n ++ bs) m slab).readString = .error .error := by
  have h : utilityMqttReadUint16 (ofBuf (utilityMqttWriteUint16 n ++ bs) m slab).p
      (ofBuf (utilityMqttWriteUint16 n ++ bs) m slab).plen = n % 2 ^ 16 :=
    congrArg Prod.fst (readUint16_write n bs m slab)
  rw [readString, NgxPlus.readString_max _ (h.trans hn)]

/-- The buffer, with every allocation to come succeeding. -/
abbrev full (bs : Bytes) (after : Mem) : Dec := ofBuf bs after (Stream'.const true)

@[simp] theorem slabAlloc_full (bs : Bytes) (m : Mem) : (full bs m).slabAlloc = .ok (full bs m) := rfl

@[simp] theorem strdup_full (b bs : Bytes) (m : Mem) : (full bs m).strdup b = (.of b, full bs m) := rfl

theorem readUint16_le (d : Dec) : d.readUint16.1 ≤ 65535 := NgxPlus.readUint16_le _ _

end Dec

/-! ## The message -/

def readEnvhost (d : Dec) : Except Rc (DiversionEnvHost × Dec) := do
  let (key, d) ← d.readString
  let (value, d) ← d.readString
  let d ← d.slabAlloc
  return (⟨key, value⟩, d)

structure RuntimeBody where
  src : Bytes
  to_ : Bytes
  id : Nat
  envhosts : List DiversionEnvHost
deriving DecidableEq, Repr

def readEnvhosts (len : Nat) (d : Dec) : Except Rc (List DiversionEnvHost × Dec) :=
  if len > 0 then do
    let d ← d.slabAlloc
    let (hosts, d) ← times readEnvhost len d
    return (hosts.1, d)
  else .ok ([], d)

def readRuntimeBody (d : Dec) : Except Rc (RuntimeBody × Dec) := do
  let (src, d) ← d.readString
  let (to_, d) ← d.readString
  let (id, d) := d.readUint32
  let (len, d) := d.readUint16
  let (envhosts, d) ← readEnvhosts len d
  return (⟨src, to_, id, envhosts⟩, d)

/-! ## The stored state -/

/-- `runtimeinfo->src.data` keeps its old pointer when the new string is empty. -/
def storeStr (old : NgxStr) (b : Bytes) (d : Dec) : NgxStr × Dec :=
  if b.length > 0 then d.strdup b else ({ old with len := 0 }, d)

/-- An `int16_t` from a `uint16_t`. -/
def toInt16 (n : Nat) : Int := if n < 2 ^ 15 then n else n - 2 ^ 16

def installRuntime (s : Shm) (status version : Nat) (b : RuntimeBody) (d : Dec) : Shm :=
  let (src, d) := storeStr s.src b.src d
  let (to_, _) := storeStr s.to_ b.to_ d
  { s with
    id := b.id
    src := src
    to_ := to_
    envhosts := b.envhosts
    status := toInt16 status
    version := version }

inductive RuntimeGate
  | same
  | refuse
  | replace
deriving DecidableEq, Repr

def runtimeGate (s : Shm) (status version : Nat) : RuntimeGate :=
  if s.version = version then .same
  else if s.version > version ∧ version > 0 then .refuse
  else if status ≠ 0 ∧ status ≠ 1 ∧ status ≠ 3 then .refuse
  else .replace

/-- The stored configuration goes, unless its version is 0. -/
def makeRoom (s : Shm) : Shm :=
  if s.version > 0 then freeDiversionEnvhosts (freeDiversionPolicy { s with status := 0 }) else s

def finishRuntimeinfo (s : Shm) (status version : Nat) (d : Dec) : Rc × Shm :=
  if s.lock > 0 then (.error, freeDiversionEnvhosts s)
  else match readRuntimeBody d with
    | .error _ => (.error, freeDiversionEnvhosts s)
    | .ok (b, d) => (.ok, installRuntime s status version b d)

/-- Status and version in front of a message, and the rest. -/
def msgStatus (d : Dec) : Nat := d.readUint16.1

def msgVersion (d : Dec) : Nat := d.readUint16.2.readUint32.1

def msgBody (d : Dec) : Dec := d.readUint16.2.readUint32.2

def diversionDecodeRuntimeinfo (s : Shm) (d : Dec) : Rc × Shm :=
  let status := msgStatus d
  let version := msgVersion d
  match runtimeGate s status version with
  | .same =>
    (.ok, { s with status := if s.status = -1 then toInt16 status else s.status, version := version })
  | .refuse => (.error, freeDiversionEnvhosts s)
  | .replace =>
    if s.version > 0 ∧ s.lock > 0 then (.declined, { s with status := 0 })
    else finishRuntimeinfo (makeRoom s) status version (msgBody d)

/-- The Lua call; a buffer of one byte or none is refused. -/
def updateRuntimeinfo (s : Shm) (buf : Bytes) (after : Mem) (slab : Stream' Bool) : Rc × Shm :=
  if buf.length < 2 then (.error, s) else diversionDecodeRuntimeinfo s (.ofBuf buf after slab)

/-! ## What a message can do -/

/-- Everything the runtime message `m` can do to the state. -/
inductive RuntimeOutcome (s : Shm) (m : Dec) : Rc → Shm → Prop
  | same (hv : s.version = msgVersion m) :
    RuntimeOutcome s m .ok
      { s with status := if s.status = -1 then toInt16 (msgStatus m) else s.status }
  | refused (hg : runtimeGate s (msgStatus m) (msgVersion m) = .refuse) :
    RuntimeOutcome s m .error (freeDiversionEnvhosts s)
  | declined (hg : runtimeGate s (msgStatus m) (msgVersion m) = .replace) (hv : s.version > 0)
      (hl : s.lock > 0) :
    RuntimeOutcome s m .declined { s with status := 0 }
  | failed (hg : runtimeGate s (msgStatus m) (msgVersion m) = .replace)
      (hl : s.version > 0 → s.lock = 0) :
    RuntimeOutcome s m .error (freeDiversionEnvhosts (makeRoom s))
  | installed (hg : runtimeGate s (msgStatus m) (msgVersion m) = .replace) (hl : s.lock = 0)
      (b : RuntimeBody) (d : Dec) (hb : readRuntimeBody (msgBody m) = .ok (b, d)) :
    RuntimeOutcome s m .ok (installRuntime (makeRoom s) (msgStatus m) (msgVersion m) b d)

@[simp] theorem lock_makeRoom (s : Shm) : (makeRoom s).lock = s.lock := by
  unfold makeRoom; split <;> rfl

theorem lock_eq_zero {s : Shm} (h : ¬ s.lock > 0) : s.lock = 0 :=
  UInt64.le_zero_iff.1 (UInt64.not_lt.1 h)

theorem runtimeGate_same {s : Shm} {status version : Nat}
    (h : runtimeGate s status version = .same) : s.version = version := by
  unfold runtimeGate at h
  split at h
  · assumption
  · split at h
    · simp at h
    · split at h <;> simp at h

theorem runtimeGate_replace {s : Shm} {status version : Nat}
    (h : runtimeGate s status version = .replace) :
    (s.version < version ∨ version = 0) ∧ s.version ≠ version ∧
      (status = 0 ∨ status = 1 ∨ status = 3) := by
  unfold runtimeGate at h
  split at h
  · simp at h
  · split at h
    · simp at h
    · split at h
      · simp at h
      · omega

theorem finishRuntimeinfo_outcome {s : Shm} {m : Dec}
    (hg : runtimeGate s (msgStatus m) (msgVersion m) = .replace) (hl : s.version > 0 → s.lock = 0) :
    RuntimeOutcome s m (finishRuntimeinfo (makeRoom s) (msgStatus m) (msgVersion m) (msgBody m)).1
      (finishRuntimeinfo (makeRoom s) (msgStatus m) (msgVersion m) (msgBody m)).2 := by
  unfold finishRuntimeinfo
  split
  · exact .failed hg hl
  · rename_i hl0
    rw [lock_makeRoom] at hl0
    cases hb : readRuntimeBody (msgBody m) with
    | error e => exact .failed hg hl
    | ok r => exact .installed hg (lock_eq_zero hl0) r.1 r.2 hb

theorem diversionDecodeRuntimeinfo_outcome (s : Shm) (m : Dec) :
    RuntimeOutcome s m (diversionDecodeRuntimeinfo s m).1 (diversionDecodeRuntimeinfo s m).2 := by
  unfold diversionDecodeRuntimeinfo
  cases hg : runtimeGate s (msgStatus m) (msgVersion m) with
  | same =>
    have hv := runtimeGate_same hg
    simp only [hg]
    have h := RuntimeOutcome.same (m := m) hv
    rwa [hv] at h
  | refuse =>
    simp only [hg]
    exact .refused hg
  | replace =>
    simp only [hg]
    split
    · rename_i h
      exact .declined hg h.1 h.2
    · rename_i h
      exact finishRuntimeinfo_outcome hg fun hv => lock_eq_zero fun hl => h ⟨hv, hl⟩

end NgxPlus.Diversion
