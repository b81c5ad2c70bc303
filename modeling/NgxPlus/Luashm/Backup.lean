import NgxPlus.Lib.Decode
import NgxPlus.Mqtt.ShdictInv

/-!
# The dictionary backup (`ngx_proc_luashm_backup_module.c`)

| here | there |
| --- | --- |
| `msLeft`                       | `(int64_t) (expires - now)` |
| `Dict`                         | the zone with `value_type` and `user_flags` of its nodes |
| `extNode`, `ExtNode`           | `ngx_http_lua_shdict_node_ext_t` (`:23-30`): written over old memory, and read |
| `backupLoop`, `backup`         | `ngx_proc_luashm_backup_backup` (`:387-501`): what the file is after it |
| `shdictExpire`, `allocNode`    | `ngx_http_lua_shdict_expire` (`:242-297`) and the allocation with its evictions (`:349-370`) |
| `recoverNode`, `recover`       | `ngx_proc_luashm_backup_recover` (`:299-385`) |
| `round`, `processInit`         | the loop and the reading of `ngx_proc_luashm_backup_process_init` (`:553-566`) for one zone |

`sizeof(ngx_http_lua_shdict_node_ext_t)` is 32 while `data` begins at 24, so behind each record
lie 8 bytes that are never written, as are byte 1 and bytes 12 to 15; all of them hold what the
buffer held. The same is true of the length at the start of the file when no entry is
written. `ngx_read_file` (`ngx_files.c`) is one `pread`; `readMax` is the most that the system gives in one
call (0x7ffff000 bytes on Linux).

An entry that lives at the recovery lived at the backup, and the zone takes the records from
the tail of the queue on, so the order is that of the old queue (`backup_recover`). The length
at the start of the file is a `uint32_t`, while the buffer is as large as the zone: a larger
dictionary is cut off (`recover_cut`).
-/

namespace NgxPlus.Luashm

open ByteMem Mqtt Decode

/-! ## The dictionary -/

def luaTBoolean : Nat := 1
def luaTNumber : Nat := 3
def luaTString : Nat := 4

structure Kind where
  valueType : Nat
  userFlags : Nat

structure Dict where
  zone : Shzone
  kinds : NodeKey → Kind

/-- An empty zone in whatever memory. -/
def Dict.init (heap : NodeKey → ShdictNode) (kinds : NodeKey → Kind) : Dict := ⟨.init heap, kinds⟩

structure Entry where
  key : Bytes
  value : Bytes
  valueType : Nat
  userFlags : Nat
  expires : Nat
deriving DecidableEq

def Dict.entry (d : Dict) (k : NodeKey) : Entry :=
  ⟨(d.zone.heap k).data.take (d.zone.heap k).keyLen, (d.zone.heap k).value, (d.kinds k).valueType,
    (d.kinds k).userFlags, (d.zone.heap k).expires⟩

/-- The entries, from the head of the LRU queue on. -/
def Dict.entries (d : Dict) : List Entry := d.zone.lruQueue.map d.entry

/-- `(int64_t) (expires - now)`. -/
def msLeft (expires now : Nat) : Int := ((expires : Int) - now + 2 ^ 63) % 2 ^ 64 - 2 ^ 63

/-- The test of both filters. -/
def lives (expires now : Nat) : Bool := expires == 0 || decide (msLeft expires now > 60000)

theorem lives_iff {expires now : Nat} : lives expires now = true ↔ expires = 0 ∨ msLeft expires now > 60000 := by
  simp only [lives, Bool.or_eq_true, beq_iff_eq, decide_eq_true_eq]

/-! ## Backup -/

def sizeofExt : Nat := 32

/-- The record written for a node where the buffer held `old`. -/
def extNode (old : Mem) (kind : Kind) (sd : ShdictNode) : Bytes :=
  -- `u_short + uint32_t` is a `uint32_t`.
  let len := (sd.keyLen + sd.valueLen) % 2 ^ 32
  let valueLen :=
    if kind.valueType = luaTString then toLe 4 sd.valueLen
    else if kind.valueType = luaTNumber then toLe 4 8
    else if kind.valueType = luaTBoolean then toLe 4 1
    else (old.drop 4).take 4
  toLe 1 kind.valueType ++ ((old.drop 1).take 1 ++ (toLe 2 sd.keyLen ++ (valueLen ++ (toLe 4 kind.userFlags ++
    ((old.drop 12).take 4 ++ (toLe 8 sd.expires ++ (sd.data.take len ++ (old.drop (24 + len)).take 8)))))))

/-- The walk from the last node on, with what lies in the buffer so far. -/
def backupLoop (mem : Mem) (now : Nat) (d : Dict) : List NodeKey → Bytes → Bytes
  | [], buff => buff
  | k :: q, buff =>
    if lives (d.zone.heap k).expires now then
      backupLoop mem now d q (buff ++ extNode (mem.drop buff.length) (d.kinds k) (d.zone.heap k))
    else backupLoop mem now d q buff

/-- The file after a backup in a buffer that held `mem`; `old` is what the file was. -/
def backup (mem : Mem) (now : Nat) (d : Dict) (old : Bytes) : Bytes :=
  if d.zone.lruQueue = [] then old
  else
    let buff := backupLoop mem now d d.zone.lruQueue.reverse (mem.take 4)
    let contentSize := buff.length % 2 ^ 32
    let buff := if contentSize > 4 then toLe 4 contentSize ++ buff.drop 4 else buff
    buff.take contentSize

/-! ## Recovery -/

structure ExtNode where
  valueType : Nat
  keyLen : Nat
  valueLen : Nat
  userFlags : Nat
  expires : Nat
  data : Mem

def ExtNode.read (m : Mem) : ExtNode :=
  ⟨le 1 m, le 2 (m.drop 2), le 4 (m.drop 4), le 4 (m.drop 8), le 8 (m.drop 16), m.drop 24⟩

def ExtNode.stride (ext : ExtNode) : Nat := sizeofExt + ext.keyLen + ext.valueLen

def int32 (n : Int) : Int := (n + 2 ^ 31) % 2 ^ 32 - 2 ^ 31

/-- `n`, an `int`, as `value_len` is one here. -/
def ExtNode.allocSize (ext : ExtNode) : Int := int32 (nodeHeader + ext.keyLen + int32 ext.valueLen)

/-- `while (n < 3)`, with `fuel = 3 - n`, and the number freed. -/
def shdictExpireLoop (now : Nat) : Nat → Nat → Shzone → Nat → Shzone × Nat
  | 0, _, z, freed => (z, freed)
  | fuel + 1, n, z, freed =>
    match z.lruQueue.getLast? with
    | none => (z, freed)
    | some k =>
      let sd := z.heap k
      if n ≠ 0 ∧ (sd.expires = 0 ∨ msLeft sd.expires now > 0) then (z, freed)
      else shdictExpireLoop now fuel (n + 1) (z.remove k) (freed + 1)

def shdictExpire (z : Shzone) (now n : Nat) : Shzone × Nat := shdictExpireLoop now (3 - n) n z 0

/-- `for (i = 0; i < 30; i++)`. -/
def allocLoop (now : Nat) (alloc : Nat → Bool) (n : Int) : Nat → Nat → Shzone → Shzone × Bool
  | 0, _, z => (z, false)
  | fuel + 1, i, z =>
    let (z, freed) := shdictExpire z now 0
    if freed = 0 then (z, false)
    else if slabAlloc alloc (i + 1) n then (z, true)
    else allocLoop now alloc n fuel (i + 1) z

def allocNode (now : Nat) (alloc : Nat → Bool) (n : Int) (z : Shzone) : Shzone × Bool :=
  if slabAlloc alloc 0 n then (z, true) else allocLoop now alloc n 30 0 z

/-- A `memcpy` of a negative length. -/
inductive Fault
  | memcpy
deriving DecidableEq

/-- After the allocation (`:372-384`), `r` the zone and whether there is a node. -/
def recoverNode (d : Dict) (ext : ExtNode) (r : Shzone × Bool) : Except Fault Dict :=
  if r.2 then
    if int32 ext.valueLen < 0 then .error .memcpy
    else
      let key := ext.data.take ext.keyLen
      let node := NodeKey.mk (ngxCrc32Short key) key r.1.next
      let value := (ext.data.drop ext.keyLen).take ext.valueLen
      let sd : ShdictNode := ⟨ext.keyLen, ext.valueLen, ext.expires,
        key ++ value ++ₛ (r.1.heap node).data.drop (ext.keyLen + ext.valueLen), ext.allocSize - nodeHeader⟩
      .ok ⟨r.1.insert node sd, Function.update d.kinds node ⟨ext.valueType, ext.userFlags⟩⟩
  else .ok { d with zone := r.1 }

/-- A record becomes a node at the head of the queue. -/
def recover (now : Nat) (alloc : Nat → Bool) (d : Dict) (ext : ExtNode) : Except Fault Dict :=
  recoverNode d ext (allocNode now alloc ext.allocSize d.zone)

/-- The zone, the memory from `buff->pos` on and `buff->last - buff->pos`. -/
structure Reader where
  dict : Dict
  rest : Mem
  left : Nat

def more (s : Reader) : Bool := decide (0 < s.left)

/-- The second filter. -/
def recoverIf (now : Nat) (alloc : Nat → Bool) (d : Dict) (ext : ExtNode) : Except Fault Dict :=
  if lives ext.expires now then recover now alloc d ext else .ok d

def round (now : Nat) (alloc : Nat → Nat → Bool) (s : Reader) : Except Fault Reader := do
  let ext := ExtNode.read s.rest
  let d ← recoverIf now (alloc s.dict.zone.next) s.dict ext
  .ok ⟨d, s.rest.drop ext.stride, s.left - ext.stride⟩

/-- `alloc i j` says whether the `j`-th attempt for the `i`-th node succeeds; `mem` is what the
buffer of `size` bytes held. -/
def processInit (readMax size : Nat) (mem : Mem) (file : Bytes) (now : Nat) (alloc : Nat → Nat → Bool) (d : Dict) :
    Except Fault Dict :=
  let n := min file.length (min size readMax)
  let buff := file.take n ++ₛ mem.drop n
  if 0 < n then do
    let contentSize := le 4 buff
    -- `NULL` lies before `pos`, as the start of the buffer does.
    let last := if contentSize = n then n else if contentSize > n then 0 else contentSize
    let s ← loop more (round now alloc) last ⟨d, buff.drop 4, last - 4⟩
    .ok s.dict
  else .ok d

/-! ## Entries -/

/-- What a node can hold: `key_len` is a `u_short`, and the size of a node was an `int` when it
was allocated. -/
structure EntryOk (e : Entry) : Prop where
  keyLen : e.key.length ≤ 65535
  value : e.valueType = luaTString ∨ e.valueType = luaTNumber ∧ e.value.length = 8 ∨
    e.valueType = luaTBoolean ∧ e.value.length = 1
  size : nodeHeader + e.key.length + e.value.length < 2 ^ 31
  expires : e.expires < 2 ^ 64
  userFlags : e.userFlags < 2 ^ 32

/-- A well-formed dictionary of strings, numbers and booleans. -/
structure Dict.Ok (d : Dict) : Prop where
  zone : d.zone.Inv
  key : ∀ k ∈ d.zone.lruQueue, (d.entry k).key = k.key
  entry : ∀ e ∈ d.entries, EntryOk e

theorem EntryOk.valueType {e : Entry} (h : EntryOk e) : e.valueType < 256 := by
  rcases h.value with h | ⟨h, -⟩ | ⟨h, -⟩ <;> rw [h] <;> decide

@[simp] theorem Dict.length_key (d : Dict) (k : NodeKey) : (d.entry k).key.length = (d.zone.heap k).keyLen := by
  simp [Dict.entry]

@[simp] theorem Dict.length_value (d : Dict) (k : NodeKey) : (d.entry k).value.length = (d.zone.heap k).valueLen := by
  simp [Dict.entry, ShdictNode.value]

theorem Dict.key_append_value (d : Dict) (k : NodeKey) :
    (d.entry k).key ++ (d.entry k).value =
      (d.zone.heap k).data.take ((d.zone.heap k).keyLen + (d.zone.heap k).valueLen) := by
  simp [Dict.entry, ShdictNode.value, Stream'.take_add]

/-! ## The records -/

/-- A record with the bytes between its fields. -/
structure Rec where
  entry : Entry
  pad1 : Bytes
  pad2 : Bytes
  pad3 : Bytes
  length1 : pad1.length = 1
  length2 : pad2.length = 4
  length3 : pad3.length = 8

/-- Up to `value_len`. -/
def Rec.head (r : Rec) : Bytes :=
  toLe 1 r.entry.valueType ++ (r.pad1 ++ (toLe 2 r.entry.key.length ++ toLe 4 r.entry.value.length))

def Rec.tail (r : Rec) : Bytes :=
  toLe 4 r.entry.userFlags ++ (r.pad2 ++ (toLe 8 r.entry.expires ++ (r.entry.key ++ (r.entry.value ++ r.pad3))))

def Rec.bytes (r : Rec) : Bytes := r.head ++ r.tail

@[simp] theorem Rec.length_head (r : Rec) : r.head.length = 8 := by
  simp [Rec.head, r.length1]

@[simp] theorem Rec.length_bytes (r : Rec) : r.bytes.length = sizeofExt + r.entry.key.length + r.entry.value.length := by
  simp only [Rec.bytes, List.length_append, Rec.length_head, Rec.tail, length_toLe, r.length2, r.length3, sizeofExt]
  omega

/-- Both lengths lie in the first 8 bytes. -/
theorem Rec.stride_head (r : Rec) (h : EntryOk r.entry) (m : Mem) :
    (ExtNode.read (r.head ++ₛ m)).stride = r.bytes.length := by
  have hk : (r.head ++ₛ m).drop 2 = toLe 2 r.entry.key.length ++ₛ (toLe 4 r.entry.value.length ++ₛ m) := by
    rw [Rec.head, ← List.append_assoc, Stream'.append_append_stream]
    rw [drop_append_of_eq _ _ (by simp [r.length1]), Stream'.append_append_stream]
  have hv : (r.head ++ₛ m).drop 4 = toLe 4 r.entry.value.length ++ₛ m := by
    rw [show 4 = 2 + 2 from rfl, ← Stream'.drop_drop, hk, drop_append_of_eq _ _ (length_toLe 2 _)]
  have hsize := h.size
  have hkey := h.keyLen
  rw [ExtNode.stride, ExtNode.read, hk, hv, le_toLe, le_toLe, r.length_bytes, Nat.mod_eq_of_lt (by omega),
    Nat.mod_eq_of_lt (by omega)]

/-- What lies before `data`. -/
def header (valueType keyLen valueLen userFlags expires : Nat) (pad1 pad2 : Bytes) : Bytes :=
  toLe 1 valueType ++ (pad1 ++ (toLe 2 keyLen ++ (toLe 4 valueLen ++ (toLe 4 userFlags ++ (pad2 ++ toLe 8 expires)))))

theorem read_header (t kl vl fl ex : Nat) {pad1 pad2 : Bytes} (h1 : pad1.length = 1) (h2 : pad2.length = 4) (m : Mem) :
    ExtNode.read (header t kl vl fl ex pad1 pad2 ++ₛ m) =
      ⟨t % 256 ^ 1, kl % 256 ^ 2, vl % 256 ^ 4, fl % 256 ^ 4, ex % 256 ^ 8, m⟩ := by
  have h0 : header t kl vl fl ex pad1 pad2 ++ₛ m =
      toLe 1 t ++ₛ (pad1 ++ₛ (toLe 2 kl ++ₛ (toLe 4 vl ++ₛ (toLe 4 fl ++ₛ (pad2 ++ₛ (toLe 8 ex ++ₛ m)))))) := by
    simp only [header, Stream'.append_append_stream]
  have h2' : (header t kl vl fl ex pad1 pad2 ++ₛ m).drop 2 =
      toLe 2 kl ++ₛ (toLe 4 vl ++ₛ (toLe 4 fl ++ₛ (pad2 ++ₛ (toLe 8 ex ++ₛ m)))) := by
    rw [h0, ← Stream'.append_append_stream, drop_append_of_eq _ _ (by simp [h1])]
  have h4 : (header t kl vl fl ex pad1 pad2 ++ₛ m).drop 4 =
      toLe 4 vl ++ₛ (toLe 4 fl ++ₛ (pad2 ++ₛ (toLe 8 ex ++ₛ m))) := by
    rw [show 4 = 2 + 2 from rfl, ← Stream'.drop_drop, h2', drop_append_of_eq _ _ (length_toLe 2 _)]
  have h8 : (header t kl vl fl ex pad1 pad2 ++ₛ m).drop 8 = toLe 4 fl ++ₛ (pad2 ++ₛ (toLe 8 ex ++ₛ m)) := by
    rw [show 8 = 4 + 4 from rfl, ← Stream'.drop_drop, h4, drop_append_of_eq _ _ (length_toLe 4 _)]
  have h16 : (header t kl vl fl ex pad1 pad2 ++ₛ m).drop 16 = toLe 8 ex ++ₛ m := by
    rw [show 16 = 8 + 8 from rfl, ← Stream'.drop_drop, h8, ← Stream'.append_append_stream,
      drop_append_of_eq _ _ (by simp [h2])]
  have h24 : (header t kl vl fl ex pad1 pad2 ++ₛ m).drop 24 = m := by
    rw [show 24 = 16 + 8 from rfl, ← Stream'.drop_drop, h16, drop_append_of_eq _ _ (length_toLe 8 _)]
  rw [ExtNode.read, h2', h4, h8, h16, h24, h0]
  simp only [le_toLe]

theorem Rec.read_bytes (r : Rec) (h : EntryOk r.entry) (m : Mem) :
    ExtNode.read (r.bytes ++ₛ m) =
      ⟨r.entry.valueType, r.entry.key.length, r.entry.value.length, r.entry.userFlags, r.entry.expires,
        r.entry.key ++ (r.entry.value ++ r.pad3) ++ₛ m⟩ := by
  have hbytes : r.bytes ++ₛ m = header r.entry.valueType r.entry.key.length r.entry.value.length r.entry.userFlags
      r.entry.expires r.pad1 r.pad2 ++ₛ (r.entry.key ++ (r.entry.value ++ r.pad3) ++ₛ m) := by
    simp only [Rec.bytes, Rec.head, Rec.tail, header, List.append_assoc, Stream'.append_append_stream]
  have hsize := h.size
  have hkey := h.keyLen
  have htype := h.valueType
  have hexp := h.expires
  have hflags := h.userFlags
  rw [hbytes, read_header _ _ _ _ _ r.length1 r.length2]
  rw [Nat.mod_eq_of_lt (by omega), Nat.mod_eq_of_lt (by omega), Nat.mod_eq_of_lt (by omega),
    Nat.mod_eq_of_lt (by omega), Nat.mod_eq_of_lt (by omega)]

/-! ## What the backup writes -/

theorem extNode_eq (old : Mem) {d : Dict} {k : NodeKey} (h : EntryOk (d.entry k)) :
    ∃ r : Rec, extNode old (d.kinds k) (d.zone.heap k) = r.bytes ∧ r.entry = d.entry k := by
  have hsize := h.size
  have hlen : ((d.zone.heap k).keyLen + (d.zone.heap k).valueLen) % 2 ^ 32 =
      (d.zone.heap k).keyLen + (d.zone.heap k).valueLen := Nat.mod_eq_of_lt (by simp at hsize; omega)
  refine ⟨⟨d.entry k, (old.drop 1).take 1, (old.drop 12).take 4,
    (old.drop (24 + ((d.zone.heap k).keyLen + (d.zone.heap k).valueLen))).take 8, by simp, by simp, by simp⟩, ?_, rfl⟩
  have hval : (if (d.kinds k).valueType = luaTString then toLe 4 (d.zone.heap k).valueLen
      else if (d.kinds k).valueType = luaTNumber then toLe 4 8
      else if (d.kinds k).valueType = luaTBoolean then toLe 4 1
      else (old.drop 4).take 4) = toLe 4 (d.entry k).value.length := by
    have hv := h.value
    change (d.kinds k).valueType = luaTString ∨ (d.kinds k).valueType = luaTNumber ∧ _ ∨
      (d.kinds k).valueType = luaTBoolean ∧ _ at hv
    rcases hv with ht | ⟨ht, hl⟩ | ⟨ht, hl⟩
    · rw [if_pos ht, d.length_value]
    · rw [if_neg (by rw [ht]; decide), if_pos ht, hl]
    · rw [if_neg (by rw [ht]; decide), if_neg (by rw [ht]; decide), if_pos ht, hl]
  have hdata := d.key_append_value k
  simp only [extNode, hlen, hval, Rec.bytes, Rec.head, Rec.tail, List.append_assoc, d.length_key, ← hdata]
  rfl

/-- The loop, where each node that lives is written as an `r` with `bytes r`. -/
theorem backupLoop_encoded {ρ : Type} {bytes : ρ → Bytes} {entry : ρ → Entry} {W : ρ → Prop} (mem : Mem) (now : Nat)
    {d : Dict} {q : List NodeKey}
    (h : ∀ k ∈ q, ∀ i, ∃ r, extNode (mem.drop i) (d.kinds k) (d.zone.heap k) = bytes r ∧ entry r = d.entry k ∧ W r)
    (buff : Bytes) :
    ∃ rs : List ρ, backupLoop mem now d q buff = buff ++ rs.flatMap bytes ∧
      rs.map entry = (q.map d.entry).filter (fun e => lives e.expires now) ∧ ∀ r ∈ rs, W r := by
  induction q generalizing buff with
  | nil => exact ⟨[], by simp [backupLoop], rfl, fun _ hr => absurd hr List.not_mem_nil⟩
  | cons k q ih =>
    have hq := fun k hk => h k (List.mem_cons_of_mem _ hk)
    have hexp : (d.entry k).expires = (d.zone.heap k).expires := rfl
    rw [backupLoop, List.map_cons, List.filter_cons, hexp]
    by_cases hl : lives (d.zone.heap k).expires now = true
    · obtain ⟨r, hr, he, hw⟩ := h k List.mem_cons_self buff.length
      obtain ⟨rs, hb, hrs, hall⟩ := ih hq (buff ++ extNode (mem.drop buff.length) (d.kinds k) (d.zone.heap k))
      refine ⟨r :: rs, ?_, ?_, List.forall_mem_cons.2 ⟨hw, hall⟩⟩
      · rw [if_pos hl, hb, hr, List.flatMap_cons, List.append_assoc]
      · rw [if_pos hl, List.map_cons, hrs, he]
    · obtain ⟨rs, hb, hrs, hall⟩ := ih hq buff
      exact ⟨rs, by rw [if_neg hl, hb], by rw [if_neg hl, hrs], hall⟩

/-! ## A record that is read -/

/-- The node of an entry, at the head of the queue. -/
def Dict.add (d : Dict) (e : Entry) : Dict :=
  let node := NodeKey.mk (ngxCrc32Short e.key) e.key d.zone.next
  let sd : ShdictNode := ⟨e.key.length, e.value.length, e.expires,
    e.key ++ e.value ++ₛ (d.zone.heap node).data.drop (e.key.length + e.value.length), e.key.length + e.value.length⟩
  ⟨d.zone.insert node sd, Function.update d.kinds node ⟨e.valueType, e.userFlags⟩⟩

/-- An entry that lives at the recovery. -/
def Dict.take (now : Nat) (d : Dict) (e : Entry) : Dict := if lives e.expires now then d.add e else d

section Enough

variable {alloc : Nat → Nat → Bool} (hmem : ∀ i j, alloc i j = true)
include hmem

theorem recover_rec (now : Nat) (d : Dict) {e : Entry} (h : EntryOk e) (m : Mem) (i : Nat) :
    recover now (alloc i) d ⟨e.valueType, e.key.length, e.value.length, e.userFlags, e.expires,
      e.key ++ₛ (e.value ++ₛ m)⟩ = .ok (d.add e) := by
  have hsize := h.size
  have hv : int32 e.value.length = e.value.length := by rw [int32]; omega
  have hn : int32 (nodeHeader + e.key.length + (e.value.length : Int)) =
      nodeHeader + e.key.length + e.value.length := by rw [int32]; omega
  have halloc : allocNode now (alloc i) (nodeHeader + e.key.length + e.value.length : Int) d.zone = (d.zone, true) := by
    rw [allocNode, if_pos]
    simp only [slabAlloc, hmem, Bool.and_true, decide_eq_true_eq]
    omega
  have hkey : (e.key ++ₛ (e.value ++ₛ m)).take e.key.length = e.key := take_append_of_eq _ _ rfl
  have hval : ((e.key ++ₛ (e.value ++ₛ m)).drop e.key.length).take e.value.length = e.value := by
    rw [drop_append_of_eq _ _ rfl, take_append_of_eq _ _ rfl]
  have hpos : ¬ (e.value.length : Int) < 0 := by omega
  have hsz : (nodeHeader + e.key.length + e.value.length : Int) - nodeHeader = e.key.length + e.value.length := by omega
  rw [recover]
  simp only [recoverNode, ExtNode.allocSize, hv, hn, halloc, hkey, hval, if_neg hpos, hsz, if_true]
  rfl

/-- The reader before the bytes `bs`. -/
def reading (behind : Mem) (d : Dict) (bs : Bytes) : Reader := ⟨d, bs ++ₛ behind, bs.length⟩

theorem round_rec (now : Nat) (behind : Mem) (d : Dict) (r : Rec) (rest : Bytes) (h : EntryOk r.entry) :
    round now alloc (reading behind d (r.bytes ++ rest)) = .ok (reading behind (d.take now r.entry) rest) := by
  have hread := r.read_bytes h (rest ++ₛ behind)
  have hstride : (ExtNode.read (r.bytes ++ₛ (rest ++ₛ behind))).stride = r.bytes.length := by
    rw [hread, ExtNode.stride, r.length_bytes]
  have hdata : r.entry.key ++ (r.entry.value ++ r.pad3) ++ₛ (rest ++ₛ behind) =
      r.entry.key ++ₛ (r.entry.value ++ₛ (r.pad3 ++ₛ (rest ++ₛ behind))) := by
    simp only [Stream'.append_append_stream]
  have hstep : recoverIf now (alloc d.zone.next) d (ExtNode.read (r.bytes ++ₛ (rest ++ₛ behind))) =
      .ok (d.take now r.entry) := by
    rw [hread, recoverIf, Dict.take]
    split
    · rw [hdata, recover_rec hmem now d h]
    · rfl
  rw [round, reading, Stream'.append_append_stream, hstep]
  simp only [ok_bind, hstride, reading, List.length_append, Nat.add_sub_cancel_left, drop_append_of_eq _ _ rfl]

theorem loop_recs (now : Nat) (behind : Mem) (d : Dict) {recs : List Rec} (h : ∀ r ∈ recs, EntryOk r.entry) {fuel : Nat}
    (hfuel : recs.length ≤ fuel) :
    loop more (round now alloc) fuel (reading behind d (recs.flatMap Rec.bytes)) =
      .ok (reading behind ((recs.map Rec.entry).foldl (Dict.take now) d) []) := by
  rw [List.foldl_map]
  refine loop_encoded (S := reading behind) (N := fun d r => d.take now r.entry) (G := fun r => EntryOk r.entry) ?_ ?_
    (fun d r rest hr => round_rec hmem now behind d r rest hr) h d hfuel
  · intro d r rest _
    simp only [more, reading, List.length_append, r.length_bytes, sizeofExt, decide_eq_true_eq]
    omega
  · exact fun d => rfl

end Enough

/-! ## The recovered dictionary -/

section Insert

variable {d : Dict} (key : Bytes) (sd : ShdictNode) (kind : Kind)

/-- `ngx_rbtree_insert` and `ngx_queue_insert_head`. -/
def Dict.insert (d : Dict) (key : Bytes) (sd : ShdictNode) (kind : Kind) : Dict :=
  ⟨d.zone.insert (.mk (ngxCrc32Short key) key d.zone.next) sd,
    Function.update d.kinds (.mk (ngxCrc32Short key) key d.zone.next) kind⟩

theorem Dict.insert_entry_self : (d.insert key sd kind).entry (.mk (ngxCrc32Short key) key d.zone.next) =
    ⟨sd.data.take sd.keyLen, sd.value, kind.valueType, kind.userFlags, sd.expires⟩ := by
  simp only [Dict.entry, Dict.insert, Shzone.insert, Function.update_self]

theorem Dict.insert_entry_of_mem (h : d.zone.WF) {k : NodeKey} (hk : k ∈ d.zone.lruQueue) :
    (d.insert key sd kind).entry k = d.entry k := by
  have hne : k ≠ .mk (ngxCrc32Short key) key d.zone.next := by
    rintro rfl
    have := h.fresh _ ((h.same _).1 hk)
    simp at this
  simp only [Dict.entry, Dict.insert, Shzone.insert, Function.update_of_ne hne]

theorem Dict.entries_insert (h : d.zone.WF) : (d.insert key sd kind).entries =
    ⟨sd.data.take sd.keyLen, sd.value, kind.valueType, kind.userFlags, sd.expires⟩ :: d.entries := by
  change (d.insert key sd kind).entry _ :: d.zone.lruQueue.map (d.insert key sd kind).entry = _
  rw [Dict.insert_entry_self]
  congr 1
  exact List.map_congr_left fun k hk => Dict.insert_entry_of_mem key sd kind h hk

end Insert

section Add

variable {d : Dict} {e : Entry}

/-- The node of `add`. -/
def Dict.added (d : Dict) (e : Entry) : ShdictNode :=
  ⟨e.key.length, e.value.length, e.expires,
    e.key ++ e.value ++ₛ (d.zone.heap (.mk (ngxCrc32Short e.key) e.key d.zone.next)).data.drop
      (e.key.length + e.value.length), e.key.length + e.value.length⟩

theorem Dict.add_eq_insert : d.add e = d.insert e.key (d.added e) ⟨e.valueType, e.userFlags⟩ := rfl

theorem Dict.entry_added : (⟨(d.added e).data.take (d.added e).keyLen, (d.added e).value, e.valueType, e.userFlags,
    (d.added e).expires⟩ : Entry) = e := by
  have hkey (m : Mem) : (e.key ++ e.value ++ₛ m).take e.key.length = e.key := by
    rw [Stream'.append_append_stream, take_append_of_eq _ _ rfl]
  have hval (m : Mem) : ((e.key ++ e.value ++ₛ m).drop e.key.length).take e.value.length = e.value := by
    rw [Stream'.append_append_stream, drop_append_of_eq _ _ rfl, take_append_of_eq _ _ rfl]
  simp only [Dict.added, ShdictNode.value, hkey, hval]

theorem Dict.entries_add (h : d.zone.WF) : (d.add e).entries = e :: d.entries := by
  rw [Dict.add_eq_insert, Dict.entries_insert _ _ _ h, Dict.entry_added]

theorem Dict.Ok.add (h : d.Ok) (he : EntryOk e) (hnew : ∀ x ∈ d.entries, x.key ≠ e.key) : (d.add e).Ok where
  zone := by
    refine h.zone.insert _ fun k hk hpos => ?_
    have hq := (h.zone.wf.same k).2 hk
    refine hnew (d.entry k) (List.mem_map_of_mem hq) ?_
    rw [h.key k hq]
    exact congrArg (fun p => (ofLex p).2) hpos
  key k hk := by
    rcases List.mem_cons.1 hk with rfl | hk
    · rw [Dict.add_eq_insert, Dict.insert_entry_self, Dict.entry_added, NodeKey.key_mk]
    · rw [Dict.add_eq_insert, Dict.insert_entry_of_mem _ _ _ h.zone.wf hk, h.key k hk]
  entry x hx := by
    rw [Dict.entries_add h.zone.wf] at hx
    rcases List.mem_cons.1 hx with rfl | hx
    · exact he
    · exact h.entry x hx

end Add

theorem Dict.ok_init (heap : NodeKey → ShdictNode) (kinds : NodeKey → Kind) : (Dict.init heap kinds).Ok :=
  ⟨inv_init heap, fun _ hk => absurd hk List.not_mem_nil, fun _ he => absurd he List.not_mem_nil⟩

/-- The keys of the entries are those of the nodes. -/
theorem Dict.Ok.nodup_keys {d : Dict} (h : d.Ok) : (d.entries.map Entry.key).Nodup := by
  have hmap : d.entries.map Entry.key = d.zone.lruQueue.map NodeKey.key := by
    rw [Dict.entries, List.map_map]
    exact List.map_congr_left fun k hk => h.key k hk
  rw [hmap]
  refine List.Nodup.map_on (fun a ha b hb hab => ?_) h.zone.wf.queueNodup
  exact h.zone.unique a ((h.zone.wf.same a).1 ha) b ((h.zone.wf.same b).1 hb) hab

/-- Entries of different keys arrive one before the other. -/
theorem foldl_take_spec (now : Nat) {es : List Entry} {d : Dict} (h : d.Ok) (hes : ∀ e ∈ es, EntryOk e)
    (hnodup : (es.map Entry.key).Nodup) (hnew : ∀ e ∈ es, ∀ x ∈ d.entries, x.key ≠ e.key) :
    (es.foldl (Dict.take now) d).Ok ∧
      (es.foldl (Dict.take now) d).entries = (es.filter (fun e => lives e.expires now)).reverse ++ d.entries := by
  induction es generalizing d with
  | nil => exact ⟨h, rfl⟩
  | cons e es ih =>
    obtain ⟨hout, hnodup⟩ := List.nodup_cons.1 hnodup
    have hes' : ∀ x ∈ es, EntryOk x := fun x hx => hes x (List.mem_cons_of_mem _ hx)
    have hnew' : ∀ y ∈ es, ∀ x ∈ d.entries, x.key ≠ y.key := fun y hy => hnew y (List.mem_cons_of_mem _ hy)
    rw [List.foldl_cons, Dict.take, List.filter_cons]
    split
    · obtain ⟨hok, hent⟩ := ih (h.add (hes e List.mem_cons_self) (hnew e List.mem_cons_self)) hes' hnodup (by
        intro y hy x hx
        rw [Dict.entries_add h.zone.wf] at hx
        rcases List.mem_cons.1 hx with rfl | hx
        · exact fun hk => hout (hk ▸ List.mem_map_of_mem hy)
        · exact hnew' y hy x hx)
      refine ⟨hok, ?_⟩
      rw [hent, Dict.entries_add h.zone.wf, List.reverse_cons, List.append_assoc, List.singleton_append]
    · exact ih h hes' hnodup hnew'

/-! ## A file that is read whole -/

/-- `buff->last - buff->pos` after the backup's loop. -/
def serialisedSize (d : Dict) (now : Nat) : Nat :=
  4 + ((d.entries.filter (fun e => lives e.expires now)).map
    fun e => sizeofExt + e.key.length + e.value.length).sum

theorem length_le_flatMap_bytes (recs : List Rec) : recs.length ≤ (recs.flatMap Rec.bytes).length := by
  induction recs with
  | nil => exact le_rfl
  | cons r recs ih =>
    rw [List.flatMap_cons, List.length_append, r.length_bytes, List.length_cons, sizeofExt]
    omega

/-- What a backup writes, and what it is the file of. -/
theorem backup_encoded {ρ : Type} {bytes : ρ → Bytes} {entry : ρ → Entry} {W : ρ → Prop}
    (hbytes : ∀ r, (bytes r).length = sizeofExt + (entry r).key.length + (entry r).value.length) {d : Dict}
    (hne : d.entries ≠ []) (mem : Mem) (now : Nat)
    (h : ∀ k ∈ d.zone.lruQueue, ∀ i, ∃ r,
      extNode (mem.drop i) (d.kinds k) (d.zone.heap k) = bytes r ∧ entry r = d.entry k ∧ W r) (old : Bytes) :
    ∃ rs : List ρ, rs.map entry = (d.entries.filter (fun e => lives e.expires now)).reverse ∧ (∀ r ∈ rs, W r) ∧
      4 + (rs.flatMap bytes).length = serialisedSize d now ∧
      backup mem now d old =
        ((if serialisedSize d now % 2 ^ 32 > 4 then toLe 4 (serialisedSize d now % 2 ^ 32) else mem.take 4) ++
          rs.flatMap bytes).take (serialisedSize d now % 2 ^ 32) := by
  have hne' : d.zone.lruQueue ≠ [] := fun he => hne (by rw [Dict.entries, he, List.map_nil])
  obtain ⟨rs, hb, hrs, hw⟩ := backupLoop_encoded mem now (fun k hk => h k (List.mem_reverse.1 hk)) (mem.take 4)
  rw [List.map_reverse, List.filter_reverse, ← Dict.entries] at hrs
  have hsize : 4 + (rs.flatMap bytes).length = serialisedSize d now := by
    rw [serialisedSize, ← List.sum_reverse, ← List.map_reverse, ← hrs, List.map_map, List.length_flatMap]
    congr 2
    exact List.map_congr_left fun r _ => hbytes r
  have hlen : (mem.take 4 ++ rs.flatMap bytes).length = serialisedSize d now := by
    rw [List.length_append, Stream'.length_take, hsize]
  have hdrop : (mem.take 4 ++ rs.flatMap bytes).drop 4 = rs.flatMap bytes := List.drop_left' (Stream'.length_take ..)
  refine ⟨rs, hrs, hw, hsize, ?_⟩
  simp only [backup, if_neg hne', hb, hlen, hdrop]
  split <;> rfl

theorem backup_records {d : Dict} (h : d.Ok) (hne : d.entries ≠ []) (mem : Mem) (now : Nat) (old : Bytes) :
    ∃ recs : List Rec, recs.map Rec.entry = (d.entries.filter (fun e => lives e.expires now)).reverse ∧
      4 + (recs.flatMap Rec.bytes).length = serialisedSize d now ∧
      backup mem now d old =
        ((if serialisedSize d now % 2 ^ 32 > 4 then toLe 4 (serialisedSize d now % 2 ^ 32) else mem.take 4) ++
          recs.flatMap Rec.bytes).take (serialisedSize d now % 2 ^ 32) := by
  obtain ⟨recs, hrecs, -, hsize, hfile⟩ := backup_encoded (W := fun _ => True) Rec.length_bytes hne mem now
    (fun k hk i => by
      obtain ⟨r, hr, he⟩ := extNode_eq (mem.drop i) (h.entry _ (List.mem_map_of_mem hk))
      exact ⟨r, hr, he, trivial⟩) old
  exact ⟨recs, hrecs, hsize, hfile⟩

/-- A length that is read back whole. -/
theorem le_take {c : Nat} (hc : c < 2 ^ 32) {n : Nat} (hn : 4 ≤ n) (bs : Bytes) (m : Mem) :
    le 4 ((toLe 4 c ++ bs).take n ++ₛ m) = c := by
  rw [List.take_append, List.take_of_length_le (by simpa using hn), Stream'.append_append_stream, le_toLe,
    Nat.mod_eq_of_lt (by omega)]

theorem drop_take {c n : Nat} (hn : 4 ≤ n) (bs : Bytes) (m : Mem) :
    ((toLe 4 c ++ bs).take n ++ₛ m).drop 4 = bs.take (n - 4) ++ₛ m := by
  rw [List.take_append, List.take_of_length_le (by simpa using hn), Stream'.append_append_stream,
    drop_append_of_eq _ _ (length_toLe 4 c), length_toLe]

/-- At most four bytes hold no record. -/
theorem processInit_short {readMax size : Nat} (mem : Mem) {file : Bytes} (now : Nat) (alloc : Nat → Nat → Bool)
    (d : Dict) (h : min file.length (min size readMax) ≤ 4) : processInit readMax size mem file now alloc d = .ok d := by
  unfold processInit
  generalize min file.length (min size readMax) = n at h
  have hleft (c : Nat) : (if c = n then n else if c > n then 0 else c) - 4 = 0 := by
    split
    · omega
    · split <;> omega
  simp only [hleft]
  split
  · rw [loop_stop (by rfl)]
    rfl
  · rfl

/-- A file that begins with a length, and what is read of it. -/
theorem processInit_header {c : Nat} (hc : c < 2 ^ 32) {readMax size n : Nat} {file bs : Bytes}
    (hn : min file.length (min size readMax) = n) (h4 : 4 < n) (hfile : file.take n = (toLe 4 c ++ bs).take n)
    (mem : Mem) (now : Nat) (alloc : Nat → Nat → Bool) (d : Dict) :
    processInit readMax size mem file now alloc d =
      (loop more (round now alloc) (if c = n then n else if c > n then 0 else c)
        ⟨d, bs.take (n - 4) ++ₛ mem.drop n, (if c = n then n else if c > n then 0 else c) - 4⟩ >>= fun s => .ok s.dict) := by
  rw [processInit]
  simp only [hn, if_pos (Nat.zero_lt_of_lt h4), hfile, le_take hc (le_of_lt h4), drop_take (le_of_lt h4)]

/-- The entries of the records are those of the dictionary. -/
theorem Dict.Ok.entryOk_of_reverse {d : Dict} (h : d.Ok) {t : Nat} {es : List Entry}
    (hes : es = (d.entries.filter fun e => lives e.expires t).reverse) : ∀ e ∈ es, EntryOk e := by
  intro e he
  rw [hes, List.mem_reverse] at he
  exact h.entry e (List.mem_of_mem_filter he)

/-- The dictionary that comes back when the whole file is read. -/
theorem recover_backup {d : Dict} (h : d.Ok) (hne : d.entries ≠ []) {readMax size t₁ : Nat}
    (hsize : serialisedSize d t₁ ≤ size) (hread : serialisedSize d t₁ ≤ readMax) (hlt : serialisedSize d t₁ < 2 ^ 32)
    (t₂ : Nat) (mem mem' : Mem) (old : Bytes) {alloc : Nat → Nat → Bool} (hmem : ∀ i j, alloc i j = true)
    (heap : NodeKey → ShdictNode) (kinds : NodeKey → Kind) :
    ∃ r, processInit readMax size mem' (backup mem t₁ d old) t₂ alloc (.init heap kinds) = .ok r ∧ r.Ok ∧
      r.entries = d.entries.filter fun e => lives e.expires t₁ && lives e.expires t₂ := by
  obtain ⟨recs, hrecs, hlen, hfile⟩ := backup_records h hne mem t₁ old
  have hent := h.entryOk_of_reverse hrecs
  have hnodup : ((recs.map Rec.entry).map Entry.key).Nodup := by
    rw [hrecs, List.map_reverse, List.nodup_reverse]
    exact (List.filter_sublist.map _).nodup h.nodup_keys
  obtain ⟨hok, hentries⟩ := foldl_take_spec t₂ (Dict.ok_init heap kinds) hent hnodup
    (fun _ _ x hx => absurd hx List.not_mem_nil)
  refine ⟨_, ?_, hok, ?_⟩
  · rw [Nat.mod_eq_of_lt hlt] at hfile
    by_cases h4 : serialisedSize d t₁ > 4
    · rw [if_pos h4, List.take_of_length_le (by simp only [List.length_append, length_toLe]; omega)] at hfile
      have hn : min (backup mem t₁ d old).length (min size readMax) = serialisedSize d t₁ := by
        rw [hfile, List.length_append, length_toLe, hlen]
        omega
      have hle : serialisedSize d t₁ - 4 = (recs.flatMap Rec.bytes).length := by omega
      have hcount : recs.length ≤ serialisedSize d t₁ := by
        have := length_le_flatMap_bytes recs
        omega
      rw [processInit_header hlt hn h4 (congrArg (List.take _) hfile), if_pos rfl, hle, List.take_length]
      have hloop := loop_recs hmem t₂ (mem'.drop (serialisedSize d t₁)) (.init heap kinds)
        (fun r hr => hent _ (List.mem_map_of_mem hr)) hcount
      rw [reading] at hloop
      rw [hloop]
      rfl
    · have hnil : recs = [] := by
        cases recs with
        | nil => rfl
        | cons r rs =>
          rw [List.flatMap_cons, List.length_append, r.length_bytes, sizeofExt] at hlen
          omega
      rw [hnil]
      refine processInit_short _ _ _ _ ?_
      have : (backup mem t₁ d old).length ≤ serialisedSize d t₁ := by
        rw [hfile]
        exact List.length_take_le ..
      omega
  · rw [hentries, hrecs, List.filter_reverse, List.reverse_reverse, List.filter_filter]
    simp only [Bool.and_comm (lives _ t₂)]
    exact List.append_nil _

/-! ## Evictions -/

/-- Only nodes went. -/
structure Evicts (z z' : Shzone) : Prop where
  wf : z.WF → z'.WF
  heap : z'.heap = z.heap
  next : z'.next = z.next
  queue : z'.lruQueue.Sublist z.lruQueue

theorem Evicts.refl (z : Shzone) : Evicts z z := ⟨id, rfl, rfl, .refl _⟩

theorem Evicts.trans {a b c : Shzone} (hab : Evicts a b) (hbc : Evicts b c) : Evicts a c :=
  ⟨hbc.wf ∘ hab.wf, hbc.heap.trans hab.heap, hbc.next.trans hab.next, hbc.queue.trans hab.queue⟩

theorem evicts_remove (z : Shzone) (k : NodeKey) : Evicts z (z.remove k) :=
  ⟨fun h => h.remove k, rfl, rfl, List.erase_sublist⟩

theorem evicts_shdictExpireLoop (now fuel n : Nat) (z : Shzone) (freed : Nat) :
    Evicts z (shdictExpireLoop now fuel n z freed).1 := by
  induction fuel generalizing n z freed with
  | zero => exact .refl z
  | succ fuel ih =>
    rw [shdictExpireLoop]
    cases z.lruQueue.getLast? with
    | none => exact .refl z
    | some k =>
      simp only
      split
      · exact .refl z
      · exact (evicts_remove z k).trans (ih (n + 1) (z.remove k) (freed + 1))

theorem evicts_allocLoop (now : Nat) (alloc : Nat → Bool) (n : Int) (fuel i : Nat) (z : Shzone) :
    Evicts z (allocLoop now alloc n fuel i z).1 := by
  induction fuel generalizing i z with
  | zero => exact .refl z
  | succ fuel ih =>
    have h := evicts_shdictExpireLoop now 3 0 z 0
    rw [allocLoop]
    simp only
    split
    · exact h
    · split
      · exact h
      · exact h.trans (ih (i + 1) _)

theorem evicts_allocNode (now : Nat) (alloc : Nat → Bool) (n : Int) (z : Shzone) :
    Evicts z (allocNode now alloc n z).1 := by
  rw [allocNode]
  split
  · exact .refl z
  · exact evicts_allocLoop now alloc n 30 0 z

/-! ## A file that is cut off -/

theorem Dict.length_entries (d : Dict) : d.entries.length = d.zone.lruQueue.length := List.length_map ..

theorem length_recoverNode {d d' : Dict} {ext : ExtNode} {r : Shzone × Bool} (h : recoverNode d ext r = .ok d') :
    d'.zone.lruQueue.length ≤ r.1.lruQueue.length + 1 := by
  rw [recoverNode] at h
  split at h
  · split at h
    · cases h
    · obtain rfl := Except.ok.inj h
      exact le_rfl
  · obtain rfl := Except.ok.inj h
    exact Nat.le_succ _

/-- A record is at most one entry more. -/
theorem length_recoverIf {now : Nat} {alloc : Nat → Bool} {d d' : Dict} {ext : ExtNode}
    (h : recoverIf now alloc d ext = .ok d') : d'.entries.length ≤ d.entries.length + 1 := by
  rw [Dict.length_entries, Dict.length_entries]
  rw [recoverIf] at h
  split at h
  · exact (length_recoverNode h).trans (Nat.succ_le_succ (evicts_allocNode ..).queue.length_le)
  · obtain rfl := Except.ok.inj h
    exact Nat.le_succ _

theorem round_spec {now : Nat} {alloc : Nat → Nat → Bool} {s s' : Reader} (h : round now alloc s = .ok s') :
    s'.dict.entries.length ≤ s.dict.entries.length + 1 ∧ s'.rest = s.rest.drop (ExtNode.read s.rest).stride ∧
      s'.left = s.left - (ExtNode.read s.rest).stride := by
  rw [round, bind_eq_ok] at h
  obtain ⟨d, hd, h⟩ := h
  obtain rfl := Except.ok.inj h
  exact ⟨length_recoverIf hd, rfl, rfl⟩

section Cut

variable {r : Rec} (hr : EntryOk r.entry) {k : Nat} (bs : Bytes) (behind : Mem)
include hr

/-- A record that is there as a whole is stepped over. -/
theorem stride_whole (hk : r.bytes.length ≤ k) :
    (ExtNode.read ((r.bytes ++ bs).take k ++ₛ behind)).stride = r.bytes.length ∧
      ((r.bytes ++ bs).take k ++ₛ behind).drop r.bytes.length = bs.take (k - r.bytes.length) ++ₛ behind := by
  have hmem : (r.bytes ++ bs).take k ++ₛ behind = r.bytes ++ₛ (bs.take (k - r.bytes.length) ++ₛ behind) := by
    rw [List.take_append, List.take_of_length_le hk, Stream'.append_append_stream]
  rw [hmem]
  constructor
  · rw [Rec.bytes, Stream'.append_append_stream, r.stride_head hr]
    rfl
  · rw [drop_append_of_eq _ _ rfl]

/-- Where a record goes over the end, so does the step. -/
theorem le_stride_cut (hk : k < r.bytes.length) : k ≤ (ExtNode.read ((r.bytes ++ bs).take k ++ₛ behind)).stride := by
  by_cases h8 : 8 ≤ k
  · have hmem : (r.bytes ++ bs).take k ++ₛ behind = r.head ++ₛ ((r.tail ++ bs).take (k - 8) ++ₛ behind) := by
      rw [Rec.bytes, List.append_assoc, List.take_append, List.take_of_length_le (by simpa using h8),
        Stream'.append_append_stream, r.length_head]
    rw [hmem, r.stride_head hr]
    omega
  · rw [ExtNode.stride, sizeofExt]
    omega

end Cut

/-- From the first `k` bytes of some records come at most as many entries as there are records. -/
theorem loop_cut {now : Nat} {alloc : Nat → Nat → Bool} {recs : List Rec} (h : ∀ r ∈ recs, EntryOk r.entry)
    {k : Nat} (hk : k ≤ (recs.flatMap Rec.bytes).length) (behind : Mem) {d : Dict} {fuel : Nat} {s : Reader}
    (hs : loop more (round now alloc) fuel ⟨d, (recs.flatMap Rec.bytes).take k ++ₛ behind, k⟩ = .ok s) :
    s.dict.entries.length ≤ d.entries.length + recs.length := by
  induction recs generalizing k d fuel with
  | nil =>
    obtain rfl : k = 0 := Nat.le_zero.1 hk
    rw [loop_stop rfl] at hs
    obtain rfl := Except.ok.inj hs
    exact le_rfl
  | cons r recs ih =>
    have hr := h r List.mem_cons_self
    cases fuel with
    | zero =>
      obtain rfl := Except.ok.inj hs
      exact Nat.le_add_right _ _
    | succ fuel =>
      by_cases h0 : k = 0
      · subst h0
        rw [loop_stop rfl] at hs
        obtain rfl := Except.ok.inj hs
        exact Nat.le_add_right _ _
      rw [loop_more (by simp only [more, decide_eq_true_eq]; omega), bind_eq_ok] at hs
      obtain ⟨s₁, h₁, hs⟩ := hs
      obtain ⟨hlen, hrest, hleft⟩ := round_spec h₁
      simp only at hlen hrest hleft
      rw [List.flatMap_cons] at hrest hleft hk
      by_cases hfull : r.bytes.length ≤ k
      · obtain ⟨hstride, hdrop⟩ := stride_whole hr (recs.flatMap Rec.bytes) behind hfull
        rw [hstride] at hrest hleft
        rw [hdrop] at hrest
        have hs' : loop more (round now alloc) fuel
            ⟨s₁.dict, (recs.flatMap Rec.bytes).take (k - r.bytes.length) ++ₛ behind, k - r.bytes.length⟩ = .ok s := by
          rw [← hrest, ← hleft]
          exact hs
        rw [List.length_append] at hk
        have := ih (fun x hx => h x (List.mem_cons_of_mem _ hx)) (by omega) hs'
        rw [List.length_cons]
        omega
      · have hstride := le_stride_cut hr (recs.flatMap Rec.bytes) behind (not_le.1 hfull)
        rw [loop_stop (by simp only [more, decide_eq_false_iff_not]; omega)] at hs
        obtain rfl := Except.ok.inj hs
        rw [List.length_cons]
        omega

/-- Where less is left than the last record is long, it is not reached. -/
theorem loop_cut_last {now : Nat} {alloc : Nat → Nat → Bool} {recs : List Rec} (hpos : recs ≠ [])
    (h : ∀ r ∈ recs, EntryOk r.entry) {k : Nat} (hk : k + 2 ^ 31 + sizeofExt ≤ (recs.flatMap Rec.bytes).length)
    (behind : Mem) {d : Dict} {fuel : Nat} {s : Reader}
    (hs : loop more (round now alloc) fuel ⟨d, (recs.flatMap Rec.bytes).take k ++ₛ behind, k⟩ = .ok s) :
    s.dict.entries.length < d.entries.length + recs.length := by
  obtain ⟨ys, y, rfl⟩ := (List.eq_nil_or_concat' recs).resolve_left hpos
  have hy := (h y (by simp)).size
  have hbytes : ((ys ++ [y]).flatMap Rec.bytes).length = (ys.flatMap Rec.bytes).length + y.bytes.length := by simp
  rw [y.length_bytes] at hbytes
  have hk' : k ≤ (ys.flatMap Rec.bytes).length := by omega
  have htake : ((ys ++ [y]).flatMap Rec.bytes).take k = (ys.flatMap Rec.bytes).take k := by
    rw [List.flatMap_append, List.take_append_of_le_length hk']
  rw [htake] at hs
  have := loop_cut (fun r hr => h r (by simp [hr])) hk' _ hs
  rw [List.length_append, List.length_singleton]
  omega

/-- A dictionary that does not fit the `uint32_t`, or one read, comes back smaller. -/
theorem recover_cut {d : Dict} (h : d.Ok) (hne : d.entries ≠ []) {readMax size t₁ : Nat} (h4 : 4 ≤ readMax)
    (hsize : serialisedSize d t₁ ≤ size) (hcut : 2 ^ 32 ≤ serialisedSize d t₁ ∨ readMax < serialisedSize d t₁)
    (t₂ : Nat) (mem mem' : Mem) (old : Bytes) (alloc : Nat → Nat → Bool) (heap : NodeKey → ShdictNode)
    (kinds : NodeKey → Kind) {r : Dict}
    (hr : processInit readMax size mem' (backup mem t₁ d old) t₂ alloc (.init heap kinds) = .ok r) :
    r.entries.length < (d.entries.filter fun e => lives e.expires t₁).length := by
  obtain ⟨recs, hrecs, hlen, hfile⟩ := backup_records h hne mem t₁ old
  have hcount : (d.entries.filter fun e => lives e.expires t₁).length = recs.length := by
    rw [← List.length_reverse, ← hrecs, List.length_map]
  have hent : ∀ r ∈ recs, EntryOk r.entry := fun r hr => h.entryOk_of_reverse hrecs _ (List.mem_map_of_mem hr)
  have hpos : recs ≠ [] := by
    rintro rfl
    rw [List.flatMap_nil, List.length_nil] at hlen
    omega
  have hinit : (Dict.init heap kinds).entries.length = 0 := rfl
  rw [hcount]
  generalize hT : serialisedSize d t₁ = T at *
  have hc : T % 2 ^ 32 < 2 ^ 32 := Nat.mod_lt _ (by decide)
  have hcT : T % 2 ^ 32 ≤ T := Nat.mod_le ..
  have hfl : (backup mem t₁ d old).length ≤ T % 2 ^ 32 := by
    rw [hfile]
    exact List.length_take_le ..
  by_cases hshort : min (backup mem t₁ d old).length (min size readMax) ≤ 4
  · rw [processInit_short _ _ _ _ hshort] at hr
    obtain rfl := Except.ok.inj hr
    exact List.length_pos_iff.2 hpos
  have hc4 : T % 2 ^ 32 > 4 := by omega
  rw [if_pos hc4] at hfile
  have hlen' : (backup mem t₁ d old).length = T % 2 ^ 32 := by
    rw [hfile, List.length_take, List.length_append, length_toLe]
    omega
  generalize hn : min (backup mem t₁ d old).length (min size readMax) = n at hshort
  have hbuff : (backup mem t₁ d old).take n = (toLe 4 (T % 2 ^ 32) ++ recs.flatMap Rec.bytes).take n := by
    rw [hfile, List.take_take, Nat.min_eq_left (by omega)]
  rw [processInit_header hc hn (by omega) hbuff] at hr
  obtain ⟨s, hs, hr⟩ := bind_eq_ok.1 hr
  obtain rfl := Except.ok.inj hr
  by_cases hcn : T % 2 ^ 32 = n
  · -- What was cut off is longer than any record.
    rw [if_pos hcn] at hs
    have hk : n - 4 + 2 ^ 31 + sizeofExt ≤ (recs.flatMap Rec.bytes).length := by
      rw [sizeofExt]
      omega
    have := loop_cut_last hpos hent hk _ hs
    omega
  · rw [if_neg hcn, if_pos (by omega), loop_stop rfl] at hs
    obtain rfl := Except.ok.inj hs
    exact List.length_pos_iff.2 hpos

/-! ## Round trip -/

/-- No expiry, or more than a minute left. -/
def keeps (now : Nat) (e : Entry) : Bool := e.expires == 0 || decide ((e.expires : Int) - now > 60000)

theorem keeps_iff {now : Nat} {e : Entry} : keeps now e = true ↔ e.expires = 0 ∨ (e.expires : Int) - now > 60000 := by
  simp only [keeps, Bool.or_eq_true, beq_iff_eq, decide_eq_true_eq]

theorem keeps_of_lives {now : Nat} (hnow : now < 2 ^ 63) {e : Entry} (he : e.expires < 2 ^ 64)
    (h : lives e.expires now = true) : keeps now e = true := by
  rw [lives_iff, msLeft] at h
  rw [keeps_iff]
  omega

theorem lives_of_keeps {t₁ t₂ : Nat} (ht : t₁ ≤ t₂) {e : Entry} (he : e.expires < t₁ + 2 ^ 63)
    (h : keeps t₂ e = true) : lives e.expires t₁ = true ∧ lives e.expires t₂ = true := by
  rw [keeps_iff] at h
  simp only [lives_iff, msLeft]
  omega

theorem keeps_not_lives {now : Nat} {e : Entry} (he : e.expires < 2 ^ 64) (h : now + 2 ^ 63 ≤ e.expires) :
    keeps now e = true ∧ lives e.expires now = false := by
  rw [keeps_iff, ← Bool.not_eq_true, lives_iff, msLeft]
  omega

/-- A backup at `t₁` of a dictionary in a zone with buffers of `size` bytes comes back at every later
time: the same entries, without those of which at most a minute is left, in the same order. -/
def RoundTrips (readMax size : Nat) (d : Dict) (t₁ : Nat) : Prop :=
  ∀ t₂, t₁ ≤ t₂ → t₂ < 2 ^ 63 → ∀ (mem mem' : Mem) (old : Bytes) (alloc : Nat → Nat → Bool),
    (∀ i j, alloc i j = true) → ∀ (heap : NodeKey → ShdictNode) (kinds : NodeKey → Kind),
    ∃ r, processInit readMax size mem' (backup mem t₁ d old) t₂ alloc (.init heap kinds) = .ok r ∧ r.Ok ∧
      r.entries = d.entries.filter (keeps t₂)

/-- A larger dictionary does not. -/
theorem not_roundTrips {d : Dict} (h : d.Ok) (hne : d.entries ≠ []) {readMax size t₁ : Nat} (ht : t₁ < 2 ^ 63)
    (h4 : 4 ≤ readMax) (hsize : serialisedSize d t₁ ≤ size)
    (hcut : 2 ^ 32 ≤ serialisedSize d t₁ ∨ readMax < serialisedSize d t₁) : ¬ RoundTrips readMax size d t₁ := by
  intro hrt
  obtain ⟨r, hr, -, hent⟩ := hrt t₁ le_rfl ht (Stream'.const 0) (Stream'.const 0) [] (fun _ _ => true)
    (fun _ _ => rfl) (fun _ => ⟨0, 0, 0, Stream'.const 0, 0⟩) (fun _ => ⟨0, 0⟩)
  have hlt := recover_cut h hne h4 hsize hcut t₁ _ _ _ _ _ _ hr
  have hle : (d.entries.filter fun e => lives e.expires t₁).length ≤ (d.entries.filter (keeps t₁)).length := by
    simp only [← List.countP_eq_length_filter]
    exact List.countP_mono_left fun e he hl => keeps_of_lives ht (h.entry e he).expires hl
  rw [hent] at hlt
  omega

theorem round_trips_iff {d : Dict} (h : d.Ok) (hne : d.entries ≠ []) {readMax size t₁ : Nat} (ht : t₁ < 2 ^ 63)
    (h4 : 4 ≤ readMax) (hsize : serialisedSize d t₁ ≤ size) :
    RoundTrips readMax size d t₁ ↔
      serialisedSize d t₁ < 2 ^ 32 ∧ serialisedSize d t₁ ≤ readMax ∧ ∀ e ∈ d.entries, e.expires < t₁ + 2 ^ 63 := by
  constructor
  · intro hrt
    have hfit : serialisedSize d t₁ < 2 ^ 32 ∧ serialisedSize d t₁ ≤ readMax := by
      by_contra hcut
      exact not_roundTrips h hne ht h4 hsize (by omega) hrt
    refine ⟨hfit.1, hfit.2, fun e he => ?_⟩
    by_contra hfar
    obtain ⟨hk, hl⟩ := keeps_not_lives (h.entry e he).expires (not_lt.1 hfar)
    -- Both descriptions of the dictionary recovered at once: one has `e`.
    obtain ⟨r, hr, -, hent⟩ := hrt t₁ le_rfl ht (Stream'.const 0) (Stream'.const 0) [] (fun _ _ => true)
      (fun _ _ => rfl) (fun _ => ⟨0, 0, 0, Stream'.const 0, 0⟩) (fun _ => ⟨0, 0⟩)
    have halloc : ∀ i j : Nat, (fun _ _ => true : Nat → Nat → Bool) i j = true := fun _ _ => rfl
    obtain ⟨r', hr', -, hent'⟩ := recover_backup h hne hsize hfit.2 hfit.1 t₁ (Stream'.const 0) (Stream'.const 0) []
      halloc (fun _ => ⟨0, 0, 0, Stream'.const 0, 0⟩) (fun _ => ⟨0, 0⟩)
    obtain rfl := Except.ok.inj (hr.symm.trans hr')
    have hmem : e ∈ r.entries := by
      rw [hent]
      exact List.mem_filter.2 ⟨he, hk⟩
    rw [hent', List.mem_filter, hl] at hmem
    simp at hmem
  · rintro ⟨hlt, hread, hfar⟩ t₂ htt ht₂ mem mem' old alloc hmem heap kinds
    obtain ⟨r, hr, hok, hent⟩ := recover_backup h hne hsize hread hlt t₂ mem mem' old hmem heap kinds
    refine ⟨r, hr, hok, ?_⟩
    rw [hent]
    refine List.filter_congr fun e he => ?_
    rw [Bool.eq_iff_iff, Bool.and_eq_true]
    exact ⟨fun hl => keeps_of_lives ht₂ (h.entry e he).expires hl.2, fun hk => lives_of_keeps htt (hfar e he) hk⟩

/-- The dictionary to which these entries were added. -/
def ofEntries (es : List Entry) : Dict := es.foldl (Dict.take 0) (.init blank fun _ => ⟨0, 0⟩)

theorem ofEntries_spec {es : List Entry} (h : ∀ e ∈ es, EntryOk e) (hnodup : (es.map Entry.key).Nodup)
    (hlive : ∀ e ∈ es, lives e.expires 0 = true) : (ofEntries es).Ok ∧ (ofEntries es).entries = es.reverse := by
  obtain ⟨hok, hent⟩ := foldl_take_spec 0 (Dict.ok_init blank fun _ => ⟨0, 0⟩) h hnodup
    (fun _ _ x hx => absurd hx List.not_mem_nil)
  refine ⟨hok, ?_⟩
  rw [ofEntries, hent, List.filter_eq_self.2 hlive]
  exact List.append_nil _

def oneOfEach : List Entry :=
  [⟨[0x61], [1, 2, 3], luaTString, 7, 0⟩, ⟨[0x62], [0, 0, 0, 0, 0, 0, 0xf0, 0x3f], luaTNumber, 0, 200000⟩,
    ⟨[0x63], [1], luaTBoolean, 0, 90000⟩]

theorem oneOfEach_ok : (ofEntries oneOfEach).Ok ∧ (ofEntries oneOfEach).entries = oneOfEach.reverse := by
  refine ofEntries_spec (fun e he => ?_) (by decide) (by decide)
  simp only [oneOfEach, List.mem_cons, List.not_mem_nil, or_false] at he
  rcases he with rfl | rfl | rfl <;> exact ⟨by decide, by decide, by decide, by decide, by decide⟩

theorem serialisedSize_oneOfEach :
    serialisedSize (ofEntries oneOfEach) 1000 = 4 + (32 + 1 + 1 + (32 + 1 + 8 + (32 + 1 + 3))) := by
  rw [serialisedSize, oneOfEach_ok.2]
  decide

theorem backup_recover_oneOfEach :
    RoundTrips 0x7ffff000 131072 (ofEntries oneOfEach) 1000 ∧
      (ofEntries oneOfEach).entries.filter (keeps 50000) =
        [⟨[0x62], [0, 0, 0, 0, 0, 0, 0xf0, 0x3f], luaTNumber, 0, 200000⟩, ⟨[0x61], [1, 2, 3], luaTString, 7, 0⟩] := by
  obtain ⟨hok, hent⟩ := oneOfEach_ok
  have hsize := serialisedSize_oneOfEach
  refine ⟨(round_trips_iff hok (by rw [hent]; decide) (by decide) (by decide) (by rw [hsize]; decide)).2
    ⟨by rw [hsize]; decide, by rw [hsize]; decide, by rw [hent]; decide⟩, ?_⟩
  rw [hent]
  decide

/-- Five strings of `n` bytes that never expire. -/
def fiveStrings (n : Nat) : List Entry :=
  (List.range 5).map fun i => ⟨[UInt8.ofNat i], List.replicate n 0, luaTString, 0, 0⟩

theorem fiveStrings_spec {n : Nat} (hn : n + 100 < 2 ^ 31) :
    (ofEntries (fiveStrings n)).Ok ∧ (ofEntries (fiveStrings n)).entries = (fiveStrings n).reverse := by
  refine ofEntries_spec (fun e he => ?_) ?_ (fun e he => ?_)
  · obtain ⟨i, -, rfl⟩ := List.mem_map.1 he
    refine ⟨by simp, Or.inl rfl, ?_, by simp, by simp⟩
    simp only [nodeHeader, List.length_singleton, List.length_replicate]
    omega
  · rw [fiveStrings, List.map_map]
    change ((List.range 5).map fun i => [UInt8.ofNat i]).Nodup
    decide
  · obtain ⟨i, -, rfl⟩ := List.mem_map.1 he
    rfl

theorem serialisedSize_fiveStrings {n : Nat} (hn : n + 100 < 2 ^ 31) :
    serialisedSize (ofEntries (fiveStrings n)) 0 = 4 + 5 * (33 + n) := by
  rw [serialisedSize, (fiveStrings_spec hn).2, List.filter_eq_self.2, List.map_reverse, List.sum_reverse, fiveStrings,
    List.map_map]
  · simp only [Function.comp_def, List.length_singleton, List.length_replicate, sizeofExt, List.map_const',
      List.length_range, List.sum_replicate_nat]
  · intro e he
    obtain ⟨i, -, rfl⟩ := List.mem_map.1 (List.mem_reverse.1 he)
    rfl

/-- Five gigabytes: the length wraps. -/
theorem backup_recover_fiveStrings :
    (ofEntries (fiveStrings (2 ^ 30))).Ok ∧ serialisedSize (ofEntries (fiveStrings (2 ^ 30))) 0 ≤ 2 ^ 33 + 65536 ∧
      ¬ RoundTrips 0x7ffff000 (2 ^ 33 + 65536) (ofEntries (fiveStrings (2 ^ 30))) 0 := by
  obtain ⟨hok, hent⟩ := fiveStrings_spec (n := 2 ^ 30) (by decide)
  have hsize := serialisedSize_fiveStrings (n := 2 ^ 30) (by decide)
  have hne : (ofEntries (fiveStrings (2 ^ 30))).entries ≠ [] := by
    rw [hent, Ne, List.reverse_eq_nil_iff, fiveStrings, List.map_eq_nil_iff]
    decide
  refine ⟨hok, by rw [hsize]; decide, not_roundTrips hok hne (by decide) (by decide) (by rw [hsize]; decide) ?_⟩
  rw [hsize]
  decide

end NgxPlus.Luashm
