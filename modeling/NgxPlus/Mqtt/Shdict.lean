import Mathlib.Data.Prod.Lex
import NgxPlus.Lib.Binary64
import NgxPlus.Mqtt.Ring
import NgxPlus.RbtreeDelete

/-!
# The message and offset dictionaries (`ngx_http_lua_mqtt_util.c`)

| here | there |
| --- | --- |
| `ngxCrc32Short`          | `ngx_crc32_short` (`ngx_crc32.h:20-35`) with its table |
| `NodeKey`                | a node: its hash, its key and its address; addresses are not used twice |
| `ShdictNode`             | `ngx_http_lua_shdict_node_t` (`ngx_http_lua_shdict.h:17-26`); `size` is the number of bytes behind `data` that were allocated |
| `lookupNode`             | the walk of `ngx_http_lua_shdict_lookup` (`:92-137`); `ngx_memn2cmp` is the order of byte strings |
| `ngxHttpLuaShdictExpire` | `:17-69` |
| `ngxHttpLuaShdictLookup` | `:72-140` |
| `updateGoto`             | which label `ngx_mqtt_shdict_update_offset` goes to (`:176-231`) |
| `labelReplace`, `labelRemove`, `labelInsert` | the labels (`:232-353`); the insertion of `ngx_mqtt_shdict_store` is the same (`:401-470`) |
| `ngxMqttShdictUpdateOffset`, `ngxMqttShdictStore` | `:147-354`, `:356-501` |

The tree compares hash, key and, on the right of an equal key, insertion order
(`ngx_http_lua_shdict_rbtree_insert_value`), so a node's place is the triple. The slab
allocator is a parameter: `alloc i` says whether the `i`-th attempt of a call succeeds. A value
is the bytes of its `ngx_str_t` and the memory behind them, or `none` for `NULL`. Types and
flags of values are left out; nothing here reads them. Each node has a memory of its own: what
a write past `size` does to the node behind it is not modelled, so results about zones ask
that there is none.
-/

namespace NgxPlus.Mqtt

open ByteMem Rbtree

/-! ## Keys -/

def ngxCrc32Table16 : List UInt32 :=
  [0x00000000, 0x1db71064, 0x3b6e20c8, 0x26d930ac, 0x76dc4190, 0x6b6b51f4, 0x4db26158, 0x5005713c,
    0xedb88320, 0xf00f9344, 0xd6d6a3e8, 0xcb61b38c, 0x9b64c2b0, 0x86d3d2d4, 0xa00ae278, 0xbdbdf21c]

def crcNibble (crc : UInt32) (c : UInt8) : UInt32 :=
  ngxCrc32Table16.getD ((crc ^^^ c.toUInt32) &&& 0xf).toNat 0 ^^^ (crc >>> 4)

@[irreducible] def ngxCrc32Short (p : Bytes) : Nat :=
  (p.foldl (fun crc c => crcNibble (crcNibble crc (c &&& 0xf)) (c >>> 4)) 0xffffffff ^^^ 0xffffffff).toNat

def NodeKey : Type := (Nat ×ₗ Bytes) ×ₗ Nat

instance : LinearOrder NodeKey := inferInstanceAs (LinearOrder ((Nat ×ₗ Bytes) ×ₗ Nat))

namespace NodeKey

def mk (hash : Nat) (key : Bytes) (id : Nat) : NodeKey := toLex (toLex (hash, key), id)

/-- Hash and key, in the order of the tree. -/
def pos (k : NodeKey) : Nat ×ₗ Bytes := (ofLex k).1

def hash (k : NodeKey) : Nat := (ofLex k.pos).1

def key (k : NodeKey) : Bytes := (ofLex k.pos).2

def id (k : NodeKey) : Nat := (ofLex k).2

@[simp] theorem pos_mk (h : Nat) (b : Bytes) (i : Nat) : (mk h b i).pos = toLex (h, b) := rfl
@[simp] theorem hash_mk (h : Nat) (b : Bytes) (i : Nat) : (mk h b i).hash = h := rfl
@[simp] theorem key_mk (h : Nat) (b : Bytes) (i : Nat) : (mk h b i).key = b := rfl
@[simp] theorem id_mk (h : Nat) (b : Bytes) (i : Nat) : (mk h b i).id = i := rfl

theorem pos_le {a b : NodeKey} (h : a ≤ b) : a.pos ≤ b.pos := (Prod.Lex.le_iff'.1 h).1

theorem pos_eq {k : NodeKey} {h : Nat} {b : Bytes} (hh : k.hash = h) (hk : k.key = b) :
    k.pos = toLex (h, b) := by rw [← hh, ← hk]; rfl

end NodeKey

def lookupNode (hash : Nat) (key : Bytes) : Node NodeKey → Option NodeKey
  | .sentinel => none
  | .node _ l k r =>
    if hash < k.hash then lookupNode hash key l
    else if hash > k.hash then lookupNode hash key r
    else if key < k.key then lookupNode hash key l
    else if key > k.key then lookupNode hash key r
    else some k

theorem lookupNode_eq (hash : Nat) (key : Bytes) (c : Color) (l : Node NodeKey) (k : NodeKey) (r : Node NodeKey) :
    lookupNode hash key (.node c l k r) =
      if toLex (hash, key) < k.pos then lookupNode hash key l
      else if toLex (hash, key) > k.pos then lookupNode hash key r
      else some k := by
  have hlt : toLex (hash, key) < k.pos ↔ hash < k.hash ∨ hash = k.hash ∧ key < k.key := Prod.Lex.lt_iff
  have hgt : toLex (hash, key) > k.pos ↔ k.hash < hash ∨ k.hash = hash ∧ k.key < key := Prod.Lex.lt_iff
  rw [lookupNode]
  by_cases h1 : hash < k.hash
  · rw [if_pos h1, if_pos (hlt.2 (Or.inl h1))]
  · by_cases h2 : hash > k.hash
    · have hno : ¬ toLex (hash, key) < k.pos := by rw [hlt]; omega
      rw [if_neg h1, if_pos h2, if_neg hno, if_pos (hgt.2 (Or.inl h2))]
    · have he : hash = k.hash := by omega
      have hlt' : toLex (hash, key) < k.pos ↔ key < k.key := by rw [hlt]; simp [he]
      have hgt' : toLex (hash, key) > k.pos ↔ key > k.key := by rw [hgt]; simp [he]
      rw [if_neg h1, if_neg h2]
      simp only [hlt', hgt']

theorem lookupNode_some {hash : Nat} {key : Bytes} {t : Node NodeKey} {k : NodeKey}
    (h : lookupNode hash key t = some k) : k ∈ t.toList ∧ k.hash = hash ∧ k.key = key := by
  induction t with
  | sentinel => cases h
  | node c l k₀ r ihl ihr =>
    rw [lookupNode_eq] at h
    simp only [Node.toList, List.mem_append, List.mem_cons]
    split at h
    · obtain ⟨hm, hr⟩ := ihl h
      exact ⟨Or.inl hm, hr⟩
    · split at h
      · obtain ⟨hm, hr⟩ := ihr h
        exact ⟨Or.inr (Or.inr hm), hr⟩
      · rename_i h1 h2
        obtain rfl := Option.some.inj h
        have hp : k₀.pos = toLex (hash, key) := le_antisymm (not_lt.1 h1) (not_lt.1 h2)
        exact ⟨Or.inr (Or.inl rfl), congrArg (fun p => (ofLex p).1) hp, congrArg (fun p => (ofLex p).2) hp⟩

theorem lookupNode_none {hash : Nat} {key : Bytes} {t : Node NodeKey} (ho : Ordered t)
    (h : lookupNode hash key t = none) : ∀ k ∈ t.toList, k.pos ≠ toLex (hash, key) := by
  induction t with
  | sentinel => simp [Node.toList]
  | node c l k₀ r ihl ihr =>
    obtain ⟨hl, hr, hlk, hkr⟩ := ordered_node.1 ho
    rw [lookupNode_eq] at h
    simp only [Node.toList, List.mem_append, List.mem_cons]
    split at h
    · rename_i hlt
      rintro k (hk | rfl | hk)
      · exact ihl hl h k hk
      · exact hlt.ne'
      · exact (lt_of_lt_of_le hlt (NodeKey.pos_le (hkr k hk))).ne'
    · split at h
      · rename_i hgt
        rintro k (hk | rfl | hk)
        · exact (lt_of_le_of_lt (NodeKey.pos_le (hlk k hk)) hgt).ne
        · exact hgt.ne
        · exact ihr hr h k hk
      · cases h

/-! ## The zone -/

structure ShdictNode where
  keyLen : Nat
  valueLen : Nat
  expires : Nat
  data : Mem
  size : Int

/-- The bytes that a reader takes for the value. -/
def ShdictNode.value (sd : ShdictNode) : Bytes := (sd.data.drop sd.keyLen).take sd.valueLen

structure Shzone where
  rbtree : NgxRbtree NodeKey
  /-- The head first. -/
  lruQueue : List NodeKey
  heap : NodeKey → ShdictNode
  /-- The next address. -/
  next : Nat
  /-- Whether the mutex was left locked. -/
  locked : Bool

/-- An empty zone in whatever memory. -/
def Shzone.init (heap : NodeKey → ShdictNode) : Shzone := ⟨.init, [], heap, 0, false⟩

def Shzone.keys (z : Shzone) : List NodeKey := z.rbtree.keys

/-- Out of the queue, out of the tree, and freed. -/
def Shzone.remove (z : Shzone) (k : NodeKey) : Shzone :=
  { z with rbtree := ngxRbtreeDelete z.rbtree k, lruQueue := z.lruQueue.erase k }

def Shzone.touch (z : Shzone) (k : NodeKey) : Shzone := { z with lruQueue := k :: z.lruQueue.erase k }

def Shzone.put (z : Shzone) (k : NodeKey) (sd : ShdictNode) : Shzone :=
  { z with heap := Function.update z.heap k sd }

def Shzone.insert (z : Shzone) (k : NodeKey) (sd : ShdictNode) : Shzone :=
  { z with
    rbtree := ngxRbtreeInsert z.rbtree k
    lruQueue := k :: z.lruQueue
    heap := Function.update z.heap k sd
    next := z.next + 1 }

def Shzone.leak (z : Shzone) : Shzone := { z with locked := true }

/-- `while (n < 3)`, with `fuel = 3 - n`, and the number freed. -/
def expireLoop (now : Nat) : Nat → Nat → Shzone → Nat → Shzone × Nat
  | 0, _, z, freed => (z, freed)
  | fuel + 1, n, z, freed =>
    match z.lruQueue.getLast? with
    | none => (z, freed)
    | some k =>
      let sd := z.heap k
      if n ≠ 0 ∧ (sd.expires = 0 ∨ (sd.expires : Int) - now > 0) then (z, freed)
      else expireLoop now fuel (n + 1) (z.remove k) (freed + 1)

def ngxHttpLuaShdictExpire (z : Shzone) (now n : Nat) : Shzone × Nat := expireLoop now (3 - n) n z 0

inductive Rc
  | ok (k : NodeKey)
  /-- `NGX_DONE`: found, but expired. -/
  | done (k : NodeKey)
  | declined
deriving DecidableEq

def ngxHttpLuaShdictLookup (z : Shzone) (now hash : Nat) (key : Bytes) : Shzone × Rc :=
  match lookupNode hash key z.rbtree.root with
  | none => (z, .declined)
  | some k =>
    let z := z.touch k
    let sd := z.heap k
    if sd.expires ≠ 0 ∧ (sd.expires : Int) - now < 0 then (z, .done k) else (z, .ok k)

/-! ## Storing -/

structure CStr where
  bytes : Bytes
  behind : Mem

def ngxOk : Int := 0
def ngxError : Int := -1

/-- What a call leaves. `rc` is `none` when it does not return: a `NULL` value that is read,
or a mutex that is never unlocked. `stored` says that the value was written; the source does
not return it. -/
structure Outcome where
  zone : Shzone
  rc : Option Int
  stored : Bool

/-- `exptime * 1000`. -/
def exptimeMs : Nat := 1800000

/-- The fields and the bytes written to a node, over the memory `old`. -/
def fillNode (key value : Bytes) (now : Nat) (size : Int) (old : Mem) : ShdictNode :=
  ⟨key.length % 2 ^ 16, value.length % 2 ^ 32, now + exptimeMs,
    key ++ value ++ₛ old.drop (key.length + value.length), size⟩

/-- The two `offsetof`s. -/
def nodeHeader : Nat := 68

/-- `n`, an `int`. -/
def allocSize (key value : Bytes) : Int :=
  ((nodeHeader + key.length + value.length : Nat) + 2 ^ 31 : Int) % 2 ^ 32 - 2 ^ 31

/-- A negative `int` is too large a `size_t`. -/
def slabAlloc (alloc : Nat → Bool) (i : Nat) (n : Int) : Bool := decide (0 ≤ n) && alloc i

/-- `for (i = 0; i < 30; i++)`. -/
def allocLoop (now : Nat) (alloc : Nat → Bool) (n : Int) : Nat → Nat → Shzone → Shzone × Bool
  | 0, _, z => (z, false)
  | fuel + 1, i, z =>
    let (z, freed) := ngxHttpLuaShdictExpire z now 0
    if freed = 0 then (z, false)
    else if slabAlloc alloc (i + 1) n then (z, true)
    else allocLoop now alloc n fuel (i + 1) z

def luaShdictAdd : Nat := 1
def luaShdictReplace : Nat := 2
def luaShdictSafeStore : Nat := 4

/-- The allocation of a new node, with the eviction it may need. -/
def allocNode (now : Nat) (alloc : Nat → Bool) (n : Int) (flags : Nat) (z : Shzone) : Shzone × Bool :=
  if slabAlloc alloc 0 n then (z, true)
  else if flags &&& luaShdictSafeStore ≠ 0 then (z, false)
  else allocLoop now alloc n 30 0 z

section

variable (now : Nat) (alloc : Nat → Bool) (hash : Nat) (key : Bytes) (value : Option CStr)

def labelInsert (flags : Nat) (z : Shzone) : Outcome :=
  match value with
  | none => ⟨z, some ngxError, false⟩
  | some value =>
    let n := allocSize key value.bytes
    let r := allocNode now alloc n flags z
    if r.2 then
      let node := NodeKey.mk hash key r.1.next
      ⟨r.1.insert node (fillNode key value.bytes now (n - nodeHeader) (r.1.heap node).data), some ngxOk, true⟩
    else ⟨r.1, some ngxError, false⟩

def labelRemove (flags : Nat) (z : Shzone) (k : NodeKey) : Outcome :=
  labelInsert now alloc hash key value flags (z.remove k)

/-- The node is written over where it is, whether the value fits `size` or not. -/
def overwrite (z : Shzone) (k : NodeKey) (value : CStr) : Outcome :=
  let sd := z.heap k
  ⟨(z.touch k).put k (fillNode key value.bytes now sd.size sd.data), some ngxOk, true⟩

def labelReplace (flags : Nat) (z : Shzone) (k : NodeKey) : Outcome :=
  match value with
  | some v =>
    if v.bytes.length = (z.heap k).valueLen then overwrite now key z k v
    else labelRemove now alloc hash key value flags z k
  | none => labelRemove now alloc hash key value flags z k

/-- Where `ngx_mqtt_shdict_update_offset` goes to. -/
inductive Goto
  | replace (k : NodeKey)
  | remove (k : NodeKey)
  | insert
  /-- Unlock and return `NGX_OK`. -/
  | keep
  /-- Return `NGX_OK` without unlocking. -/
  | leak
  /-- `*new_val` of a `NULL`. -/
  | fault
deriving DecidableEq

/-- The newer of two offsets: whether the new value replaces the old one. -/
def acceptsOffset (old new : Mem) : Bool :=
  if Binary64.gtInt (Binary64.load old) cIntMaxRing2 && Binary64.ltInt (Binary64.load new) (cIntMaxRing1 + 1) then true
  else !Binary64.ge (Binary64.load old) (Binary64.load new)

/-- With `LUA_SHDICT_REPLACE`, expired or not. -/
def offsetGoto (z : Shzone) (k : NodeKey) : Goto :=
  match value with
  | none => .fault
  | some v =>
    let sd := z.heap k
    if acceptsOffset (sd.data.drop sd.keyLen) (v.bytes ++ₛ v.behind) then .replace k else .keep

def updateGoto (flags : Nat) (z : Shzone) (rc : Rc) : Goto :=
  if flags &&& luaShdictReplace ≠ 0 then
    match rc with
    | .ok k | .done k => offsetGoto value z k
    | .declined => .insert
  else if flags &&& luaShdictAdd ≠ 0 then
    match rc with
    | .ok _ => .keep
    | _ => .insert
  else
    match rc with
    | .ok k => .remove k
    | _ => .leak

end

/-- What a call starts with: `ngx_http_lua_shdict_expire(ctx, 1)` and the lookup. -/
def enter (z : Shzone) (now : Nat) (key : Bytes) : Shzone × Rc :=
  ngxHttpLuaShdictLookup (ngxHttpLuaShdictExpire z now 1).1 now (ngxCrc32Short key) key

def ngxMqttShdictUpdateOffset (z : Shzone) (now : Nat) (alloc : Nat → Bool) (key : Bytes) (value : Option CStr)
    (flags : Nat) : Outcome :=
  if key.length = 0 ∨ key.length > 65535 then ⟨z, some 2, false⟩
  else if z.locked then ⟨z, none, false⟩
  else
    let hash := ngxCrc32Short key
    let (z, rc) := enter z now key
    match updateGoto value flags z rc with
    | .replace k => labelReplace now alloc hash key value flags z k
    | .remove k => labelRemove now alloc hash key value flags z k
    | .insert => labelInsert now alloc hash key value flags z
    | .keep => ⟨z, some ngxOk, false⟩
    | .leak => ⟨z.leak, some ngxOk, false⟩
    | .fault => ⟨z, none, false⟩

def ngxMqttShdictStore (z : Shzone) (now : Nat) (alloc : Nat → Bool) (key : Bytes) (value : Option CStr) : Outcome :=
  if key.length = 0 ∨ key.length > 65535 then ⟨z, some 2, false⟩
  else if z.locked then ⟨z, none, false⟩
  else
    let hash := ngxCrc32Short key
    let (z, rc) := enter z now key
    match rc with
    | .ok k =>
      -- The value is copied without a look at its length or at `NULL`.
      match value with
      | some v => overwrite now key z k v
      | none => ⟨z, none, false⟩
    | _ => labelInsert now alloc hash key value 0 z

end NgxPlus.Mqtt
