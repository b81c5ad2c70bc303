import NgxPlus.Mqtt.ShdictInv

/-!
# Lists in a shared dictionary (`ngx_lua_shdict_exts.c`)

| here | there |
| --- | --- |
| `Entry`, `Lnode`     | what an entry of type `LUA_TTABLE` has behind its key: the queue of its `ngx_x_lua_shdict_list_node_t` |
| `enter`              | `ngx_http_lua_shdict_expire(ctx, 1)` and `ngx_http_lua_shdict_lookup` (`:39-161`), which are those of `ngx_http_lua_mqtt_util.c` |
| `pushNode`, `initList` | the labels `push_node` (`:357-423`) and `init_list` (`:307-355`) |
| `ngxHttpShdictPushHelper` | `ngx_http_shdict_push_helper` (`:202-423`) |
| `ngxLuaShdictPopHelper`   | `ngx_lua_shdict_pop_helper` (`:457-627`) |

The zone is that of `Shdict.lean`; `value_len` of a list is its length. Whether an allocation
succeeds is a parameter, as there. A list node that is not there, and a node written over its end,
are not told further (`Reply.undefined`).

`queue d` is what the lists are for: for every key a sequence of values. A push that finds its key
as an expired list frees the nodes and keeps `value_len` (`:263-283`); the other conditions of
`SafePush` are on sizes: `u_short` for the length of a key, which only the pop checks, and the 32
bits of `n` and of `value_len`. `lists_are_deques` is about every run without such a push.
-/

namespace NgxPlus.Mqtt.ListDict

open ByteMem Rbtree

/-! ## Data -/

def luaTString : Nat := 4
def luaTNumber : Nat := 3
def luaTTable : Nat := 5

structure Lnode where
  valueType : Nat
  data : Bytes
deriving DecidableEq, Repr

structure Entry where
  valueType : Nat
  nodes : List Lnode
deriving DecidableEq, Repr

structure Dict where
  zone : Shzone
  entries : NodeKey → Entry
  now : Nat

def Dict.keys (d : Dict) : List NodeKey := d.zone.keys

def Dict.withZone (d : Dict) (z : Shzone) : Dict := { d with zone := z }

inductive Reply
  /-- `NGX_OK`, with `out` where a value was copied. -/
  | ok (out : Option Bytes)
  | error
  | undefined
deriving DecidableEq, Repr

inductive Side
  | left
  | right
deriving DecidableEq, Repr

/-! ## Push -/

/-- `offsetof(ngx_x_lua_shdict_list_node_t, data)`. -/
def lnodeHeader : Nat := 24

/-- An `int`. -/
def toInt (n : Nat) : Int := ((n : Int) + 2 ^ 31) % 2 ^ 32 - 2 ^ 31

def Side.insert (side : Side) (x : Lnode) (nodes : List Lnode) : List Lnode :=
  match side with
  | .left => x :: nodes
  | .right => nodes ++ [x]

/-- `push_node`. -/
def pushNode (alloc : Nat → Bool) (side : Side) (value : Bytes) (k : NodeKey) (d : Dict) : Dict × Reply :=
  let sd := d.zone.heap k
  let n := toInt (lnodeHeader + value.length)
  if slabAlloc alloc 1 n then
    -- the copy goes over the end of a node whose size was cut
    if n < (lnodeHeader + value.length : Nat) then (d, .undefined)
    else
      let nodes := side.insert ⟨luaTString, value⟩ (d.entries k).nodes
      ({ d with
          zone := d.zone.put k { sd with valueLen := (sd.valueLen + 1) % 2 ^ 32 }
          entries := Function.update d.entries k { d.entries k with nodes } }, .ok none)
  else if sd.valueLen = 0 then (d.withZone (d.zone.remove k), .error)
  else (d, .error)

/-- `init_list`. -/
def initList (alloc : Nat → Bool) (side : Side) (key value : Bytes) (d : Dict) : Dict × Reply :=
  let n := toInt ((nodeHeader + key.length + 16 + 7) / 8 * 8)
  if slabAlloc alloc 0 n then
    let keyLen := key.length % 2 ^ 16
    let k := NodeKey.mk (ngxCrc32Short key) (key.take keyLen) d.zone.next
    let sd : ShdictNode := ⟨keyLen, 0, 0, key ++ₛ (d.zone.heap k).data.drop key.length, n - nodeHeader⟩
    pushNode alloc side value k
      { d with zone := d.zone.insert k sd, entries := Function.update d.entries k ⟨luaTTable, []⟩ }
  else (d, .error)

/-- Past the lookup. -/
def pushFound (alloc : Nat → Bool) (side : Side) (key value : Bytes) (d : Dict) : Rc → Dict × Reply
  | .done k =>
    if (d.entries k).valueType ≠ luaTTable then initList alloc side key value (d.withZone (d.zone.remove k))
    else
      -- the nodes are freed, `value_len` stays
      pushNode alloc side value k
        { d with
          zone := (d.zone.put k { d.zone.heap k with expires := 0 }).touch k
          entries := Function.update d.entries k { d.entries k with nodes := [] } }
  | .ok k =>
    if (d.entries k).valueType ≠ luaTTable then (d, .error)
    else pushNode alloc side value k (d.withZone (d.zone.touch k))
  | .declined => initList alloc side key value d

def ngxHttpShdictPushHelper (d : Dict) (alloc : Nat → Bool) (side : Side) (key value : Bytes) : Dict × Reply :=
  let (z, rc) := enter d.zone d.now key
  pushFound alloc side key value (d.withZone z) rc

/-! ## Pop -/

def Side.first (side : Side) (nodes : List Lnode) : Option Lnode :=
  match side with
  | .left => nodes.head?
  | .right => nodes.getLast?

def Side.rest {α : Type} (side : Side) (l : List α) : List α :=
  match side with
  | .left => l.tail
  | .right => l.dropLast

/-- The node is copied and taken out of the list. -/
def takeNode (side : Side) (k : NodeKey) (d : Dict) (x : Lnode) : Dict × Reply :=
  let sd := d.zone.heap k
  let d' := { d with entries := Function.update d.entries k { d.entries k with nodes := side.rest (d.entries k).nodes } }
  if sd.valueLen = 1 then (d'.withZone (d.zone.remove k), .ok (some x.data))
  else (d'.withZone ((d.zone.put k { sd with valueLen := sd.valueLen - 1 }).touch k), .ok (some x.data))

def popFound (side : Side) (d : Dict) : Rc → Dict × Reply
  | .declined | .done _ => (d, .ok none)
  | .ok k =>
    if (d.entries k).valueType ≠ luaTTable then (d, .error)
    else if (d.zone.heap k).valueLen = 0 then (d, .error)
    else
      match side.first (d.entries k).nodes with
      -- the head of the queue is read as a node
      | none => (d, .undefined)
      | some x =>
        if x.valueType = luaTString then takeNode side k d x
        else if x.valueType = luaTNumber then
          if x.data.length ≠ 8 then (d, .error) else takeNode side k d x
        else (d, .error)

def ngxLuaShdictPopHelper (d : Dict) (side : Side) (key : Bytes) : Dict × Reply :=
  if key.length > 65535 then (d, .error)
  else
    let (z, rc) := enter d.zone d.now key
    popFound side (d.withZone z) rc

/-! ## Runs -/

inductive Action
  | push (side : Side) (key value : Bytes) (alloc : Nat → Bool)
  | pop (side : Side) (key : Bytes)
  /-- `expires` of an entry is set to a time in the past. -/
  | expire (key : Bytes) (expires : Nat)
  | tick (ms : Nat)

def expireEntry (d : Dict) (key : Bytes) (expires : Nat) : Dict :=
  if 0 < expires ∧ expires < d.now then
    match lookupNode (ngxCrc32Short key) key d.zone.rbtree.root with
    | none => d
    | some k => d.withZone (d.zone.put k { d.zone.heap k with expires })
  else d

def call (d : Dict) : Action → Dict × Reply
  | .push side key value alloc => ngxHttpShdictPushHelper d alloc side key value
  | .pop side key => ngxLuaShdictPopHelper d side key
  | .expire key expires => (expireEntry d key expires, .ok none)
  | .tick ms => ({ d with now := d.now + ms }, .ok none)

def step (d : Dict) (a : Action) : Dict := (call d a).1

/-- What a push must not meet. -/
def SafePush (d : Dict) : Action → Prop
  | .push _ key value _ =>
    key.length ≤ 65535 ∧ lnodeHeader + value.length < 2 ^ 32 ∧
      match (enter d.zone d.now key).2 with
      | .done k => (d.entries k).valueType ≠ luaTTable
      | .ok k => (d.zone.heap k).valueLen + 1 < 2 ^ 32
      | .declined => True
  | _ => True

/-! ## What the lists are for -/

/-- A list that a lookup finds alive. -/
def Live (d : Dict) (k : NodeKey) : Prop :=
  (d.entries k).valueType = luaTTable ∧
    ¬ ((d.zone.heap k).expires ≠ 0 ∧ ((d.zone.heap k).expires : Int) - d.now < 0)

instance (d : Dict) (k : NodeKey) : Decidable (Live d k) := inferInstanceAs (Decidable (_ ∧ _))

/-- The values of a key, the leftmost first. -/
def queue (d : Dict) (key : Bytes) : List Bytes :=
  match lookupNode (ngxCrc32Short key) key d.zone.rbtree.root with
  | none => []
  | some k => if Live d k then (d.entries k).nodes.map Lnode.data else []

def Side.pushed (side : Side) (x : Bytes) (q : List Bytes) : List Bytes :=
  match side with
  | .left => x :: q
  | .right => q ++ [x]

def Side.popped (side : Side) (q : List Bytes) : Option Bytes :=
  match side with
  | .left => q.head?
  | .right => q.getLast?

/-- A call does to the queues what it would do to double-ended queues. -/
def Refines (d : Dict) (a : Action) : Prop :=
  match a with
  | .push side key value _ =>
    (call d a).2 = .ok none ∧ queue (call d a).1 = Function.update (queue d) key (side.pushed value (queue d key)) ∨
      (call d a).2 = .error ∧ queue (call d a).1 = queue d
  | .pop side key =>
    ((call d a).2 = .ok (side.popped (queue d key)) ∨ (call d a).2 = .error ∧ queue d key = []) ∧
      queue (call d a).1 = Function.update (queue d) key (side.rest (queue d key))
  | .expire key expires =>
    queue (call d a).1 = if 0 < expires ∧ expires < d.now then Function.update (queue d) key [] else queue d
  | .tick _ => queue (call d a).1 = queue d

/-! ## Looking a key up -/

theorem lookup_iff {z : Shzone} (h : z.Inv) {key : Bytes} {k : NodeKey} :
    lookupNode (ngxCrc32Short key) key z.rbtree.root = some k ↔ k ∈ z.keys ∧ k.key = key := by
  constructor
  · intro hl
    exact ⟨(lookupNode_some hl).1, (lookupNode_some hl).2.2⟩
  · rintro ⟨hk, rfl⟩
    cases hl : lookupNode (ngxCrc32Short k.key) k.key z.rbtree.root with
    | none => exact absurd (NodeKey.pos_eq (h.wf.hash k hk) rfl) (lookupNode_none z.rbtree.ordered hl k hk)
    | some k' => exact congrArg some (h.unique k' (lookupNode_some hl).1 k hk (lookupNode_some hl).2.2)

section Queue

variable {d d' : Dict} (h : d.zone.Inv)

include h

theorem queue_live {k : NodeKey} (hk : k ∈ d.keys) (hl : Live d k) :
    queue d k.key = (d.entries k).nodes.map Lnode.data := by
  rw [queue, (lookup_iff h).2 ⟨hk, rfl⟩]
  simp only [hl, if_true]

theorem queue_nil {key : Bytes} (hno : ∀ k ∈ d.keys, k.key = key → ¬ Live d k) : queue d key = [] := by
  rw [queue]
  cases hl : lookupNode (ngxCrc32Short key) key d.zone.rbtree.root with
  | none => rfl
  | some k =>
    obtain ⟨hk, hkey⟩ := (lookup_iff h).1 hl
    simp only [hno k hk hkey, if_false]

/-- The queue of a key is that of its live node. -/
theorem queue_congr (h' : d'.zone.Inv) {key : Bytes}
    (hlive : ∀ k, k.key = key → (k ∈ d'.keys ∧ Live d' k ↔ k ∈ d.keys ∧ Live d k))
    (hnodes : ∀ k ∈ d.keys, k.key = key → Live d k → (d'.entries k).nodes = (d.entries k).nodes) :
    queue d' key = queue d key := by
  by_cases hex : ∃ k ∈ d.keys, k.key = key ∧ Live d k
  · obtain ⟨k, hk, rfl, hl⟩ := hex
    obtain ⟨hk', hl'⟩ := (hlive k rfl).2 ⟨hk, hl⟩
    rw [queue_live h hk hl, queue_live h' hk' hl', hnodes k hk rfl hl]
  · have hno : ∀ k ∈ d.keys, k.key = key → ¬ Live d k := fun k hk hkey hl => hex ⟨k, hk, hkey, hl⟩
    have hno' : ∀ k ∈ d'.keys, k.key = key → ¬ Live d' k := by
      intro k hk hkey hl
      obtain ⟨hk, hl⟩ := (hlive k hkey).1 ⟨hk, hl⟩
      exact hno k hk hkey hl
    rw [queue_nil h hno, queue_nil h' hno']

end Queue

/-! ## Eviction -/

/-- Only what has expired is evicted at the start of a call. -/
theorem expireLoop_expired (now fuel n : Nat) (z : Shzone) (freed : Nat) (hn : n ≠ 0) (h : z.WF) :
    ∀ k ∈ z.keys, k ∉ (expireLoop now fuel n z freed).1.keys → (z.heap k).expires ≠ 0 ∧ (z.heap k).expires ≤ now := by
  induction fuel generalizing n z freed with
  | zero => exact fun k hk hno => absurd hk hno
  | succ fuel ih =>
    intro k hk hno
    rw [expireLoop] at hno
    split at hno
    · exact absurd hk hno
    · rename_i last _
      simp only at hno
      split at hno
      · exact absurd hk hno
      · rename_i hcond
        by_cases hkl : k = last
        · subst hkl
          exact ⟨fun h0 => hcond ⟨hn, Or.inl h0⟩, by
            by_contra hgt
            exact hcond ⟨hn, Or.inr (by omega)⟩⟩
        · exact ih (n + 1) (z.remove last) (freed + 1) (by omega) (h.remove last) k
            (h.mem_remove.2 ⟨hk, hkl⟩) hno

/-- What a call starts from. -/
structure Entered (d : Dict) (key : Bytes) (z : Shzone) (rc : Rc) : Prop where
  moves : Moves d.zone z
  evicted : ∀ k ∈ d.keys, k ∉ z.keys → (d.zone.heap k).expires ≠ 0 ∧ (d.zone.heap k).expires ≤ d.now
  found : match rc with
    | .ok k => k ∈ z.keys ∧ k.key = key ∧ ¬ ((z.heap k).expires ≠ 0 ∧ ((z.heap k).expires : Int) - d.now < 0)
    | .done k => k ∈ z.keys ∧ k.key = key ∧ (z.heap k).expires ≠ 0 ∧ ((z.heap k).expires : Int) - d.now < 0
    | .declined => ∀ k ∈ z.keys, k.pos ≠ toLex (ngxCrc32Short key, key)

theorem entered {d : Dict} (h : d.zone.WF) (key : Bytes) :
    Entered d key (enter d.zone d.now key).1 (enter d.zone d.now key).2 := by
  have hexp := moves_expire d.zone d.now 1
  have hev := expireLoop_expired d.now 2 1 d.zone 0 (by omega) h
  unfold enter ngxHttpLuaShdictLookup
  cases hl : lookupNode (ngxCrc32Short key) key (ngxHttpLuaShdictExpire d.zone d.now 1).1.rbtree.root with
  | none => exact ⟨hexp, hev, lookupNode_none (ngxHttpLuaShdictExpire d.zone d.now 1).1.rbtree.ordered hl⟩
  | some k =>
    obtain ⟨hk, -, hkey⟩ := lookupNode_some hl
    simp only
    split
    · rename_i hx
      exact ⟨hexp.touch hk, hev, hk, hkey, hx⟩
    · rename_i hx
      exact ⟨hexp.touch hk, hev, hk, hkey, hx⟩

/-! ## The invariant -/

structure ListOk (now : Nat) (sd : ShdictNode) (e : Entry) : Prop where
  length : sd.valueLen = e.nodes.length
  nonempty : e.nodes ≠ []
  expires : sd.expires = 0 ∨ sd.expires < now
  strings : ∀ x ∈ e.nodes, x.valueType = luaTString

structure ListInv (d : Dict) : Prop where
  zone : d.zone.Inv
  short : ∀ k ∈ d.keys, k.key.length ≤ 65535
  lists : ∀ k ∈ d.keys, (d.entries k).valueType = luaTTable → ListOk d.now (d.zone.heap k) (d.entries k)

theorem ListInv.entered {d : Dict} (h : ListInv d) {key : Bytes} {z : Shzone} {rc : Rc} (he : Entered d key z rc) :
    ListInv (d.withZone z) ∧ queue (d.withZone z) = queue d := by
  have hz : z.Inv := h.zone.moves he.moves
  have hheap : z.heap = d.zone.heap := he.moves.heap
  have hlive : ∀ k, Live (d.withZone z) k ↔ Live d k := by
    intro k
    simp only [Live, Dict.withZone, hheap]
  refine ⟨⟨hz, fun k hk => h.short k (he.moves.keys k hk), fun k hk ht => ?_⟩,
    funext fun key' => queue_congr h.zone hz (fun k _ => ?_) fun _ _ _ _ => rfl⟩
  · have := h.lists k (he.moves.keys k hk) ht
    simp only [Dict.withZone, hheap]
    exact this
  · rw [hlive]
    constructor
    · rintro ⟨hk, hl⟩
      exact ⟨he.moves.keys k hk, hl⟩
    · rintro ⟨hk, hl⟩
      refine ⟨?_, hl⟩
      -- an evicted list is not alive
      by_contra hno
      obtain ⟨h0, hle⟩ := he.evicted k hk hno
      rcases (h.lists k hk hl.1).expires with hx | hx
      · exact h0 hx
      · exact hl.2 ⟨h0, by omega⟩

/-! ## Changes to one node -/

/-- `d'` differs from `d` in the node `k` only. -/
structure OnlyAt (k : NodeKey) (d d' : Dict) : Prop where
  zone : d'.zone.Inv
  keys : ∀ x, x ≠ k → (x ∈ d'.keys ↔ x ∈ d.keys)
  heap : ∀ x, x ≠ k → d'.zone.heap x = d.zone.heap x
  entries : ∀ x, x ≠ k → d'.entries x = d.entries x
  now : d'.now = d.now

section OnlyAt

variable {d d' : Dict} {k : NodeKey} (ho : OnlyAt k d d')

include ho

theorem OnlyAt.live {x : NodeKey} (hx : x ≠ k) : Live d' x ↔ Live d x := by
  simp only [Live, ho.heap x hx, ho.entries x hx, ho.now]

theorem OnlyAt.queue_other (h : d.zone.Inv) {key : Bytes} (hkey : key ≠ k.key) : queue d' key = queue d key := by
  have hne : ∀ x : NodeKey, x.key = key → x ≠ k := by
    rintro x hx rfl
    exact hkey hx.symm
  refine queue_congr h ho.zone (fun x hx => ?_) fun x _ hx _ => by rw [ho.entries x (hne x hx)]
  rw [ho.live (hne x hx), ho.keys x (hne x hx)]

theorem OnlyAt.queue_live (h : d.zone.Inv) (hk : k ∈ d'.keys) (hl : Live d' k) :
    queue d' = Function.update (queue d) k.key ((d'.entries k).nodes.map Lnode.data) := by
  funext key
  by_cases hkey : key = k.key
  · subst hkey
    rw [Function.update_self, ListDict.queue_live ho.zone hk hl]
  · rw [Function.update_of_ne hkey, ho.queue_other h hkey]

/-- `k` is gone, or not alive. -/
theorem OnlyAt.queue_gone (h : d.zone.Inv) (hno : k ∈ d'.keys → ¬ Live d' k)
    (hone : ∀ x ∈ d.keys, x.key = k.key → x = k) : queue d' = Function.update (queue d) k.key [] := by
  funext key
  by_cases hkey : key = k.key
  · subst hkey
    rw [Function.update_self]
    refine queue_nil ho.zone fun x hx hxk => ?_
    by_cases hxe : x = k
    · subst hxe
      exact hno hx
    · exact absurd (hone x ((ho.keys x hxe).1 hx) hxk) hxe
  · rw [Function.update_of_ne hkey, ho.queue_other h hkey]

theorem OnlyAt.lists (hshort : ∀ x ∈ d.keys, x.key.length ≤ 65535) (hks : k.key.length ≤ 65535)
    (hother : ∀ x ∈ d.keys, x ≠ k → (d.entries x).valueType = luaTTable →
      ListOk d.now (d.zone.heap x) (d.entries x))
    (hk : k ∈ d'.keys → (d'.entries k).valueType = luaTTable → ListOk d'.now (d'.zone.heap k) (d'.entries k)) :
    ListInv d' := by
  refine ⟨ho.zone, fun x hx => ?_, fun x hx ht => ?_⟩
  · by_cases hxk : x = k
    · exact hxk ▸ hks
    · exact hshort x ((ho.keys x hxk).1 hx)
  by_cases hxk : x = k
  · subst hxk
    exact hk hx ht
  · rw [ho.heap x hxk, ho.entries x hxk, ho.now]
    rw [ho.entries x hxk] at ht
    exact hother x ((ho.keys x hxk).1 hx) hxk ht

end OnlyAt

theorem onlyAt_put {d : Dict} (h : d.zone.Inv) (k : NodeKey) (sd : ShdictNode) (e : Entry) :
    OnlyAt k d { d with zone := d.zone.put k sd, entries := Function.update d.entries k e } where
  zone := h.put k sd
  keys _ _ := Iff.rfl
  heap _ hx := Function.update_of_ne hx _ _
  entries _ hx := Function.update_of_ne hx _ _
  now := rfl

theorem onlyAt_remove {d : Dict} (h : d.zone.Inv) (k : NodeKey) (entries : NodeKey → Entry)
    (hentries : ∀ x, x ≠ k → entries x = d.entries x) :
    OnlyAt k d { d with zone := d.zone.remove k, entries } where
  zone := h.moves (Moves.refl.remove k)
  keys x hx := (h.wf.mem_remove (k := k) (x := x)).trans (and_iff_left hx)
  heap _ _ := rfl
  entries := hentries
  now := rfl

theorem mem_remove_self {d : Dict} (h : d.zone.Inv) (k : NodeKey) : k ∉ (d.zone.remove k).keys :=
  fun hk => (h.wf.mem_remove.1 hk).2 rfl

/-! ## Push -/

theorem Side.map_insert (side : Side) (value : Bytes) (nodes : List Lnode) :
    (side.insert ⟨luaTString, value⟩ nodes).map Lnode.data = side.pushed value (nodes.map Lnode.data) := by
  cases side with
  | left => rfl
  | right => simp [Side.insert, Side.pushed]

theorem Side.mem_insert {side : Side} {x y : Lnode} {nodes : List Lnode} :
    y ∈ side.insert x nodes ↔ y = x ∨ y ∈ nodes := by
  cases side with
  | left => simp [Side.insert]
  | right => simp [Side.insert, or_comm]

theorem Side.length_insert (side : Side) (x : Lnode) (nodes : List Lnode) :
    (side.insert x nodes).length = nodes.length + 1 := by
  cases side with
  | left => rfl
  | right => simp [Side.insert]

/-- A node that fits 32 bits gets the memory it asks for, or none. -/
theorem toInt_of_alloc {alloc : Nat → Bool} {i n : Nat} (hn : n < 2 ^ 32) (h : slabAlloc alloc i (toInt n) = true) :
    toInt n = n := by
  simp only [slabAlloc, Bool.and_eq_true, decide_eq_true_eq] at h
  unfold toInt at h ⊢
  omega

/-- What a push leads to. -/
def Pushed (side : Side) (key value : Bytes) (d : Dict) (r : Dict × Reply) : Prop :=
  ListInv r.1 ∧
    (r.2 = .ok none ∧ queue r.1 = Function.update (queue d) key (side.pushed value (queue d key)) ∨
      r.2 = .error ∧ queue r.1 = queue d)

/-- `push_node` on a list that may still be empty. -/
theorem pushNode_spec {d : Dict} (h : d.zone.Inv) (hshort : ∀ x ∈ d.keys, x.key.length ≤ 65535) {k : NodeKey}
    (hk : k ∈ d.keys)
    (hother : ∀ x ∈ d.keys, x ≠ k → (d.entries x).valueType = luaTTable →
      ListOk d.now (d.zone.heap x) (d.entries x))
    (htype : (d.entries k).valueType = luaTTable) (hlen : (d.zone.heap k).valueLen = (d.entries k).nodes.length)
    (hexp : (d.zone.heap k).expires = 0) (hstr : ∀ x ∈ (d.entries k).nodes, x.valueType = luaTString)
    (hroom : (d.zone.heap k).valueLen + 1 < 2 ^ 32) {value : Bytes} (hsize : lnodeHeader + value.length < 2 ^ 32)
    (alloc : Nat → Bool) (side : Side) : Pushed side k.key value d (pushNode alloc side value k d) := by
  have hlive : Live d k := ⟨htype, fun hx => hx.1 hexp⟩
  have hq : queue d k.key = (d.entries k).nodes.map Lnode.data := queue_live h hk hlive
  unfold pushNode
  simp only
  split
  · rename_i halloc
    rw [if_neg (by rw [toInt_of_alloc hsize halloc]; omega)]
    have ho := onlyAt_put h k { d.zone.heap k with valueLen := ((d.zone.heap k).valueLen + 1) % 2 ^ 32 }
      { d.entries k with nodes := side.insert ⟨luaTString, value⟩ (d.entries k).nodes }
    refine ⟨ho.lists hshort (hshort k hk) hother fun _ _ => ?_, Or.inl ⟨rfl, ?_⟩⟩
    · simp only [Shzone.put, Function.update_self]
      refine ⟨?_, ?_, Or.inl hexp, fun x hx => ?_⟩
      · simp only [Side.length_insert]
        rw [Nat.mod_eq_of_lt hroom, hlen]
      · intro hnil
        have := congrArg List.length hnil
        simp [Side.length_insert] at this
      · rcases Side.mem_insert.1 hx with rfl | hx
        · rfl
        · exact hstr x hx
    · rw [ho.queue_live h hk ⟨by simpa using htype, by simp [Shzone.put, hexp]⟩, hq]
      simp only [Function.update_self, Side.map_insert]
  · split
    · rename_i h0
      have hnil : (d.entries k).nodes = [] := List.eq_nil_of_length_eq_zero (hlen ▸ h0)
      have ho := onlyAt_remove h k d.entries fun _ _ => rfl
      refine ⟨ho.lists hshort (hshort k hk) hother fun hk' => absurd hk' (mem_remove_self h k), Or.inr ⟨rfl, ?_⟩⟩
      refine (ho.queue_gone h (fun hk' => absurd hk' (mem_remove_self h k))
        fun x hx hxk => h.unique x hx k hk hxk).trans ?_
      rw [hnil] at hq
      rw [← List.map_nil (f := Lnode.data), ← hq, Function.update_eq_self]
    · rename_i h0
      refine ⟨⟨h, hshort, fun x hx ht => ?_⟩, Or.inr ⟨rfl, rfl⟩⟩
      by_cases hxk : x = k
      · subst hxk
        refine ⟨hlen, fun hnil => h0 ?_, Or.inl hexp, hstr⟩
        rw [hlen, hnil]
        rfl
      · exact hother x hx hxk ht

theorem initList_spec {d : Dict} (h : ListInv d) (key value : Bytes)
    (hnew : ∀ k ∈ d.keys, k.pos ≠ toLex (ngxCrc32Short key, key)) (hkey : key.length ≤ 65535)
    (hsize : lnodeHeader + value.length < 2 ^ 32) (alloc : Nat → Bool) (side : Side) :
    Pushed side key value d (initList alloc side key value d) := by
  have hlen : key.length % 2 ^ 16 = key.length := Nat.mod_eq_of_lt (by omega)
  unfold initList
  simp only [hlen, List.take_length]
  split
  · generalize hn : toInt ((nodeHeader + key.length + 16 + 7) / 8 * 8) - (nodeHeader : Int) = n
    generalize hk : NodeKey.mk (ngxCrc32Short key) key d.zone.next = k
    generalize hsd : ShdictNode.mk key.length 0 0 (key ++ₛ (d.zone.heap k).data.drop key.length) n = sd
    let d₁ : Dict :=
      { d with zone := d.zone.insert k sd, entries := Function.update d.entries k ⟨luaTTable, []⟩ }
    have hkk : k.key = key := by rw [← hk]; rfl
    have hz : d₁.zone.Inv := by
      subst hk
      exact h.zone.insert sd hnew
    have hmem : k ∈ d₁.keys := (mem_keys_insert d.zone.rbtree k k).2 (Or.inl rfl)
    have hheap : d₁.zone.heap k = sd := Function.update_self _ _ _
    have hentry : d₁.entries k = ⟨luaTTable, []⟩ := Function.update_self _ _ _
    have hsd' : sd.valueLen = 0 ∧ sd.expires = 0 := by rw [← hsd]; exact ⟨rfl, rfl⟩
    have ho : OnlyAt k d d₁ :=
      ⟨hz, fun x hx => (mem_keys_insert d.zone.rbtree k x).trans (or_iff_right hx),
        fun x hx => Function.update_of_ne hx _ _, fun x hx => Function.update_of_ne hx _ _, rfl⟩
    -- the key had no node before, and has no value yet
    have hnone : queue d key = [] :=
      queue_nil h.zone fun x hx hxk => absurd hxk (h.zone.wf.ne_of_pos_ne hnew x hx)
    have hqueue : queue d₁ = queue d := by
      rw [ho.queue_live h.zone hmem ⟨by rw [hentry], fun hx => hx.1 (hheap ▸ hsd'.2)⟩, hentry, hkk, List.map_nil,
        ← hnone, Function.update_eq_self]
    have hshort : ∀ x ∈ d₁.keys, x.key.length ≤ 65535 := by
      intro x hx
      by_cases hxk : x = k
      · rw [hxk, hkk]
        exact hkey
      · exact h.short x ((ho.keys x hxk).1 hx)
    have hspec := pushNode_spec hz hshort hmem
      (fun x hx hxk ht => by
        rw [ho.entries x hxk] at ht ⊢
        rw [ho.heap x hxk]
        exact h.lists x ((ho.keys x hxk).1 hx) ht)
      (by rw [hentry]) (by rw [hheap, hentry, hsd'.1]; rfl) (by rw [hheap, hsd'.2]) (by rw [hentry]; simp)
      (by rw [hheap, hsd'.1]; decide) hsize alloc side
    unfold Pushed at hspec ⊢
    rw [hqueue, hkk] at hspec
    exact hspec
  · exact ⟨h, Or.inr ⟨rfl, rfl⟩⟩

/-- A scalar has no queue: where one is removed all queues stay. -/
theorem ListInv.remove_scalar {d : Dict} (h : ListInv d) {k : NodeKey} (hk : k ∈ d.keys)
    (hscalar : (d.entries k).valueType ≠ luaTTable) :
    ListInv (d.withZone (d.zone.remove k)) ∧ queue (d.withZone (d.zone.remove k)) = queue d := by
  have ho := onlyAt_remove h.zone k d.entries fun _ _ => rfl
  have hgone := mem_remove_self h.zone k
  have hone : ∀ x ∈ d.keys, x.key = k.key → x = k := fun x hx hxk => h.zone.unique x hx k hk hxk
  refine ⟨ho.lists h.short (h.short k hk) (fun x hx _ ht => h.lists x hx ht) fun hk' => absurd hk' hgone, ?_⟩
  have hnil : queue d k.key = [] := by
    refine queue_nil h.zone fun x hx hxk hl => ?_
    obtain rfl := hone x hx hxk
    exact hscalar hl.1
  refine (ho.queue_gone h.zone (fun hk' => absurd hk' hgone) hone).trans ?_
  rw [← hnil, Function.update_eq_self]

theorem push_spec {d : Dict} (h : ListInv d) {side : Side} {key value : Bytes} {alloc : Nat → Bool}
    (hs : SafePush d (.push side key value alloc)) :
    Pushed side key value d (ngxHttpShdictPushHelper d alloc side key value) := by
  obtain ⟨hkey, hsize, hfind⟩ := hs
  have he := entered h.zone.wf key
  obtain ⟨h₁, hq⟩ := h.entered he
  have hheap : (enter d.zone d.now key).1.heap = d.zone.heap := he.moves.heap
  have hfound := he.found
  unfold ngxHttpShdictPushHelper Pushed
  rw [← hq]
  simp only
  generalize (enter d.zone d.now key).1 = z at *
  cases hrc : (enter d.zone d.now key).2 with
  | done k =>
    rw [hrc] at hfind hfound
    have hscalar : ((d.withZone z).entries k).valueType ≠ luaTTable := hfind
    obtain ⟨hk, hkk, -⟩ := hfound
    have hone : ∀ x ∈ (d.withZone z).keys, x.key = k.key → x = k := fun x hx hxk => h₁.zone.unique x hx k hk hxk
    obtain ⟨hlists, hqueue⟩ := h₁.remove_scalar hk hscalar
    have hspec := initList_spec hlists key value (fun x hx hpos => ?_) hkey hsize alloc side
    · unfold Pushed at hspec
      rw [hqueue] at hspec
      simp only [pushFound]
      rw [if_pos hscalar]
      exact hspec
    · obtain ⟨hxz, hxk⟩ := h₁.zone.wf.mem_remove.1 hx
      refine hxk (hone x hxz ?_)
      rw [hkk]
      exact congrArg (fun p => (ofLex p).2) hpos
  | ok k =>
    rw [hrc] at hfind hfound
    obtain ⟨hk, hkk, hal⟩ := hfound
    simp only [pushFound]
    split
    · exact ⟨h₁, Or.inr ⟨rfl, rfl⟩⟩
    · rename_i ht
      have ht : ((d.withZone z).entries k).valueType = luaTTable := not_not.1 ht
      obtain ⟨hlen, -, hexp, hstr⟩ := h₁.lists k hk ht
      have hexp0 : (z.heap k).expires = 0 := by
        rcases hexp with hexp | hexp
        · exact hexp
        · by_contra h0
          refine hal ⟨h0, ?_⟩
          simp only [Dict.withZone] at hexp
          omega
      have hz : (z.touch k).Inv := h₁.zone.moves (Moves.refl.touch hk)
      have hqueue : queue ((d.withZone z).withZone (z.touch k)) = queue (d.withZone z) := rfl
      have hspec := pushNode_spec (d := (d.withZone z).withZone (z.touch k)) hz h₁.short hk (fun x hx _ ht => h₁.lists x hx ht)
        ht hlen hexp0 hstr (by rw [← hheap] at hfind; exact hfind) hsize alloc side
      unfold Pushed at hspec
      rw [hqueue, hkk] at hspec
      exact hspec
  | declined =>
    rw [hrc] at hfound
    exact initList_spec h₁ key value hfound hkey hsize alloc side

/-! ## Pop -/

theorem Side.map_first (side : Side) (nodes : List Lnode) :
    (side.first nodes).map Lnode.data = side.popped (nodes.map Lnode.data) := by
  cases side with
  | left => exact (List.head?_map ..).symm
  | right => exact (List.getLast?_map ..).symm

theorem Side.map_rest (side : Side) (nodes : List Lnode) :
    (side.rest nodes).map Lnode.data = side.rest (nodes.map Lnode.data) := by
  cases side with
  | left => exact List.map_tail
  | right => simp [Side.rest, List.map_dropLast]

theorem Side.length_rest {α : Type} (side : Side) (l : List α) : (side.rest l).length = l.length - 1 := by
  cases side with
  | left => exact List.length_tail
  | right => exact List.length_dropLast

theorem Side.mem_rest {α : Type} {side : Side} {l : List α} {x : α} (h : x ∈ side.rest l) : x ∈ l := by
  cases side with
  | left => exact List.mem_of_mem_tail h
  | right => exact List.dropLast_subset l h

theorem Side.first_some (side : Side) {nodes : List Lnode} (h : nodes ≠ []) :
    ∃ x ∈ nodes, side.first nodes = some x := by
  cases side with
  | left => exact ⟨nodes.head h, List.head_mem h, List.head?_eq_some_head h⟩
  | right => exact ⟨nodes.getLast h, List.getLast_mem h, List.getLast?_eq_some_getLast h⟩

/-- What a pop leads to. -/
def Popped (side : Side) (key : Bytes) (d : Dict) (r : Dict × Reply) : Prop :=
  ListInv r.1 ∧ (r.2 = .ok (side.popped (queue d key)) ∨ r.2 = .error ∧ queue d key = []) ∧
    queue r.1 = Function.update (queue d) key (side.rest (queue d key))

/-- Nothing there, and nothing changes. -/
theorem popped_nil {d : Dict} (h : ListInv d) {key : Bytes} (hq : queue d key = []) (side : Side) {r : Reply}
    (hr : r = .ok none ∨ r = .error) : Popped side key d (d, r) := by
  have hnone : side.popped (queue d key) = none := by
    rw [hq]
    cases side <;> rfl
  have hrest : side.rest (queue d key) = queue d key := by
    rw [hq]
    cases side <;> rfl
  refine ⟨h, ?_, by rw [hrest, Function.update_eq_self]⟩
  rw [hnone]
  exact hr.imp id fun he => ⟨he, hq⟩

theorem takeNode_spec {d : Dict} (h : ListInv d) {k : NodeKey} (hk : k ∈ d.keys) (hl : Live d k) {side : Side}
    {x : Lnode} (hx : side.first (d.entries k).nodes = some x) : Popped side k.key d (takeNode side k d x) := by
  obtain ⟨hlen, hne, hexp, hstr⟩ := h.lists k hk hl.1
  have hq := queue_live h.zone hk hl
  have hout : some x.data = side.popped (queue d k.key) := by
    rw [hq, ← Side.map_first, hx]
    rfl
  have hone : ∀ y ∈ d.keys, y.key = k.key → y = k := fun y hy hyk => h.zone.unique y hy k hk hyk
  have hrest : (side.rest (d.entries k).nodes).map Lnode.data = side.rest (queue d k.key) := by
    rw [hq, Side.map_rest]
  have hlenr := side.length_rest (d.entries k).nodes
  unfold takeNode
  simp only
  split
  · rename_i h1
    have ho := onlyAt_remove h.zone k
      (Function.update d.entries k { d.entries k with nodes := side.rest (d.entries k).nodes })
      fun y hy => Function.update_of_ne hy _ _
    have hgone := mem_remove_self h.zone k
    have hnil : side.rest (d.entries k).nodes = [] := List.eq_nil_of_length_eq_zero (by omega)
    refine ⟨ho.lists h.short (h.short k hk) (fun y hy _ ht => h.lists y hy ht) fun hk' => absurd hk' hgone, Or.inl ?_, ?_⟩
    · rw [← hout]
    · refine (ho.queue_gone h.zone (fun hk' => absurd hk' hgone) hone).trans ?_
      rw [← hrest, hnil, List.map_nil]
  · rename_i h1
    have ho := onlyAt_put h.zone k { d.zone.heap k with valueLen := (d.zone.heap k).valueLen - 1 }
      { d.entries k with nodes := side.rest (d.entries k).nodes }
    have hpos : 0 < (d.entries k).nodes.length := List.length_pos_iff.2 hne
    -- moving the node to the head of the queue changes no list
    have ho' : OnlyAt k d (Dict.withZone
        { d with entries := Function.update d.entries k { d.entries k with nodes := side.rest (d.entries k).nodes } }
        ((d.zone.put k { d.zone.heap k with valueLen := (d.zone.heap k).valueLen - 1 }).touch k)) :=
      ⟨ho.zone.moves (Moves.refl.touch hk), ho.keys, ho.heap, ho.entries, rfl⟩
    refine ⟨ho'.lists h.short (h.short k hk) (fun y hy _ ht => h.lists y hy ht) fun _ _ => ?_, Or.inl ?_, ?_⟩
    · simp only [Dict.withZone, Shzone.touch, Shzone.put, Function.update_self]
      refine ⟨by simp only; omega, fun hnil => ?_, hexp, fun y hy => hstr y (Side.mem_rest hy)⟩
      have := congrArg List.length hnil
      simp only [List.length_nil] at this
      omega
    · rw [← hout]
    · refine (ho'.queue_live h.zone hk ⟨?_, ?_⟩).trans ?_
      · simpa [Dict.withZone] using hl.1
      · simpa [Dict.withZone, Shzone.touch, Shzone.put] using hl.2
      · simp only [Dict.withZone, Function.update_self, hrest]

theorem pop_spec {d : Dict} (h : ListInv d) (side : Side) (key : Bytes) :
    Popped side key d (ngxLuaShdictPopHelper d side key) := by
  unfold ngxLuaShdictPopHelper
  split
  · rename_i hgt
    refine popped_nil h (queue_nil h.zone fun k hk hkk _ => ?_) side (Or.inr rfl)
    have := h.short k hk
    rw [hkk] at this
    omega
  · have he := entered h.zone.wf key
    obtain ⟨h₁, hq⟩ := h.entered he
    have hfound := he.found
    unfold Popped
    rw [← hq]
    simp only
    generalize (enter d.zone d.now key).1 = z at *
    -- a key without a live list
    have hnone : ∀ {r : Reply}, (∀ k ∈ (d.withZone z).keys, k.key = key → ¬ Live (d.withZone z) k) →
        r = .ok none ∨ r = .error → Popped side key (d.withZone z) (d.withZone z, r) :=
      fun hno hr => popped_nil h₁ (queue_nil h₁.zone hno) side hr
    cases hrc : (enter d.zone d.now key).2 with
    | declined =>
      rw [hrc] at hfound
      exact hnone (fun k hk hkk => absurd hkk (h₁.zone.wf.ne_of_pos_ne hfound k hk)) (Or.inl rfl)
    | done k =>
      rw [hrc] at hfound
      obtain ⟨hk, hkk, hx⟩ := hfound
      refine hnone (fun y hy hyk hl => ?_) (Or.inl rfl)
      obtain rfl := h₁.zone.unique y hy k hk (hyk.trans hkk.symm)
      exact hl.2 hx
    | ok k =>
      rw [hrc] at hfound
      obtain ⟨hk, rfl, hal⟩ := hfound
      simp only [popFound]
      split
      · rename_i ht
        refine hnone (fun y hy hyk hl => ?_) (Or.inr rfl)
        obtain rfl := h₁.zone.unique y hy k hk hyk
        exact ht hl.1
      · rename_i ht
        have hl : Live (d.withZone z) k := ⟨not_not.1 ht, hal⟩
        obtain ⟨hlen, hne, -, hstr⟩ := h₁.lists k hk hl.1
        have hpos : 0 < ((d.withZone z).entries k).nodes.length := List.length_pos_iff.2 hne
        obtain ⟨x, hmem, hx⟩ := side.first_some hne
        rw [if_neg (by omega), hx]
        simp only [hstr x hmem, if_true]
        exact takeNode_spec h₁ hk hl hx

/-! ## Runs -/

theorem expire_spec {d : Dict} (h : ListInv d) (key : Bytes) (expires : Nat) :
    ListInv (expireEntry d key expires) ∧ queue (expireEntry d key expires) =
      if 0 < expires ∧ expires < d.now then Function.update (queue d) key [] else queue d := by
  unfold expireEntry
  split
  · rename_i hpast
    cases hl : lookupNode (ngxCrc32Short key) key d.zone.rbtree.root with
    | none =>
      have hnil : queue d key = [] := by simp only [queue, hl]
      refine ⟨h, ?_⟩
      simp only
      rw [← hnil, Function.update_eq_self]
    | some k =>
      obtain ⟨hk, rfl⟩ := (lookup_iff h.zone).1 hl
      have ho : OnlyAt k d (d.withZone (d.zone.put k { d.zone.heap k with expires })) :=
        ⟨h.zone.put k _, fun _ _ => Iff.rfl, fun x hx => Function.update_of_ne hx _ _, fun _ _ => rfl, rfl⟩
      refine ⟨ho.lists h.short (h.short k hk) (fun x hx _ ht => h.lists x hx ht) fun _ ht => ?_, ?_⟩
      · obtain ⟨hlen, hne, -, hstr⟩ := h.lists k hk ht
        simp only [Dict.withZone, Shzone.put, Function.update_self]
        exact ⟨hlen, hne, Or.inr hpast.2, hstr⟩
      · refine ho.queue_gone h.zone (fun _ hlive => hlive.2 ?_) fun x hx hxk => h.zone.unique x hx k hk hxk
        simp only [Dict.withZone, Shzone.put, Function.update_self]
        omega
  · exact ⟨h, rfl⟩

theorem tick_spec {d : Dict} (h : ListInv d) (ms : Nat) :
    ListInv { d with now := d.now + ms } ∧ queue { d with now := d.now + ms } = queue d := by
  refine ⟨⟨h.zone, h.short, fun k hk ht => ?_⟩, funext fun key => ?_⟩
  · obtain ⟨hlen, hne, hexp, hstr⟩ := h.lists k hk ht
    exact ⟨hlen, hne, hexp.imp_right fun hlt => Nat.lt_add_right ms hlt, hstr⟩
  · have hz : ({ d with now := d.now + ms } : Dict).zone.Inv := h.zone
    refine queue_congr h.zone hz (fun k _ => ?_) fun _ _ _ _ => rfl
    refine and_congr_right fun hk => ?_
    constructor
    · rintro ⟨ht, hal⟩
      refine ⟨ht, fun hx => hal ⟨hx.1, ?_⟩⟩
      have := hx.2
      simp only
      omega
    · rintro ⟨ht, hal⟩
      refine ⟨ht, fun hx => ?_⟩
      rcases (h.lists k hk ht).expires with h0 | hlt
      · exact hx.1 h0
      · exact hal ⟨hx.1, by omega⟩

theorem call_spec {d : Dict} (h : ListInv d) {a : Action} (hs : SafePush d a) : ListInv (step d a) ∧ Refines d a := by
  cases a with
  | push side key value alloc => exact push_spec h hs
  | pop side key => exact pop_spec h side key
  | expire key expires => exact expire_spec h key expires
  | tick ms => exact tick_spec h ms

/-- In a run without an unsafe push, every call acts on the queues as on double-ended queues, and
every list has as many nodes as it counts, at least one. -/
theorem lists_are_deques {d : Dict} (h : ListInv d) {acts : List Action}
    (hs : Trace.Always step SafePush d acts) :
    Trace.Always step Refines d acts ∧
      ∀ k ∈ (Trace.run step d acts).keys, ((Trace.run step d acts).entries k).valueType = luaTTable →
        ((Trace.run step d acts).zone.heap k).valueLen = ((Trace.run step d acts).entries k).nodes.length ∧
          0 < ((Trace.run step d acts).zone.heap k).valueLen := by
  refine ⟨Trace.always_of_inv step (I := ListInv) (fun _ _ h hs => (call_spec h hs).2)
    (fun _ _ h hs => (call_spec h hs).1) h hs, fun k hk ht => ?_⟩
  obtain ⟨hlen, hne, -⟩ := (Trace.run_inv step (I := ListInv) (fun _ _ h hs => (call_spec h hs).1) h hs).lists k hk ht
  exact ⟨hlen, by rw [hlen]; exact List.length_pos_iff.2 hne⟩

/-- An empty zone. -/
def empty : Dict := ⟨.init blank, fun _ => ⟨0, []⟩, 100⟩

theorem listInv_empty : ListInv empty where
  zone := inv_init blank
  short k hk := by simp [empty, Dict.keys, Shzone.init, Shzone.keys] at hk
  lists k hk := by simp [empty, Dict.keys, Shzone.init, Shzone.keys] at hk

def twoPushes : List Action :=
  [.push .left [0x61] [1] fun _ => true, .push .right [0x61] [2] fun _ => true, .pop .left [0x61]]

theorem lists_are_deques_twoPushes :
    queue (Trace.run step empty twoPushes) [0x61] = [[2]] ∧ Trace.Always step Refines empty twoPushes := by
  have h0 : (enter empty.zone empty.now [0x61]).2 = .declined := by decide +kernel
  have h1 : (enter (step empty (.push .left [0x61] [1] fun _ => true)).zone
      (step empty (.push .left [0x61] [1] fun _ => true)).now [0x61]).2 =
      .ok (.mk (ngxCrc32Short [0x61]) [0x61] 0) := by decide +kernel
  have h2 : ((step empty (.push .left [0x61] [1] fun _ => true)).zone.heap
      (.mk (ngxCrc32Short [0x61]) [0x61] 0)).valueLen = 1 := by decide +kernel
  have hs : Trace.Always step SafePush empty twoPushes := by
    refine ⟨⟨by decide, by decide, ?_⟩, ⟨by decide, by decide, ?_⟩, trivial, trivial⟩
    · rw [h0]
      trivial
    · rw [h1]
      simp only [h2]
      decide
  exact ⟨by decide +kernel, (lists_are_deques listInv_empty hs).1⟩

/-- Three lists expire, and the last one is pushed to when the other two were evicted: it then
has one node and counts two. -/
def pushExpired : List Action :=
  [.push .left [0x61] [1] fun _ => true, .push .left [0x62] [1] fun _ => true, .push .left [0x63] [1] fun _ => true,
    .expire [0x61] 1, .expire [0x62] 1, .expire [0x63] 1, .push .left [0x63] [2] fun _ => true]

theorem pushExpired_miscounts :
    ¬ ∀ k ∈ (Trace.run step empty pushExpired).keys,
      ((Trace.run step empty pushExpired).entries k).valueType = luaTTable →
        ((Trace.run step empty pushExpired).zone.heap k).valueLen =
          ((Trace.run step empty pushExpired).entries k).nodes.length := by
  decide +kernel

end NgxPlus.Mqtt.ListDict
