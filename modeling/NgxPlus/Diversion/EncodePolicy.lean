import NgxPlus.Diversion.LuaPolicy

/-!
# The policy codec of one file: `encode_policy` (`common.lua:288-340`) and `decode_policy`

| here | there |
| --- | --- |
| `RuleGroup`     | an entry of `divRules`; `text` may be nil |
| `encodeRule`    | the inner loop (`:307-335`), three branches by type |
| `encodeGroup`   | the outer loop (`:296-337`) |
| `encodePolicy`  | the function |
| `decodePolicy`  | `decode_policy` (`:191-286`, `LuaPolicy.lean`) |

The encoder writes groups, each with its policies inside; the decoder reads policies first, with a
bitset id that the encoder does not write, and then groups with the ids of policies. What it reads
as the first policy is the first group's uri. It gets the groups back only out of a message that
has them twice: `SecondCopy`, behind bytes that are policies to it (`policy_codec_iff`). With a first
uri of three characters or more it never does (`not_roundTrips`).
-/

namespace NgxPlus.Diversion

open ByteMem Decode

/-! ## The encoder -/

structure RuleGroup where
  uri : Bytes
  action : Nat
  backend : Bytes
  text : Option Bytes
  policys : List LuaRule
deriving DecidableEq, Repr

inductive EncodeError
  | lua (e : LuaError)
  /-- A range indexed or a number converted that is none. -/
  | badData
deriving DecidableEq, Repr

def encodeString (s : Bytes) : Except EncodeError Bytes :=
  match encodeUtf8 s with
  | .ok b => .ok b
  | .error e => .error (.lua e)

/-- `writeUint64` is `utility_mqtt_write_int64`. -/
def luaWriteUint64 (n : Int) : Bytes := utilityMqttWriteUint64 (n % 2 ^ 64).toNat

def luaWriteUint32 (n : Int) : Bytes := utilityMqttWriteUint32 (n % 2 ^ 32).toNat

/-- `#data`. -/
def LuaData.len : LuaData → Nat
  | .ranges rs => rs.length
  | .set vals => vals.length

/-- The rows of a rule. -/
def encodeData (type : Bytes) (data : LuaData) : Except EncodeError Bytes :=
  if type ∈ luaRangeTypes then
    if data.len ≤ 0 then .error (.lua .returnNil)
    else
      match data with
      | .ranges rs => .ok (rs.flatMap fun r => luaWriteUint64 r.1 ++ luaWriteUint64 r.2)
      | .set _ => .error .badData
  -- The loop's body is commented out.
  else if type ∈ luaSetTypes then .ok []
  else if type ∈ luaNumTypes then
    if data.len ≤ 0 then .error (.lua .returnNil)
    else
      match data with
      | .ranges _ => .error .badData
      | .set vals => .ok (vals.flatMap luaWriteUint32)
  else .error (.lua .returnNil)

def encodeRule (rule : LuaRule) : Except EncodeError Bytes := do
  let type ← encodeString rule.type
  let rows ← encodeData rule.type rule.data
  return utilityMqttWriteUint32 rule.id ++ type ++ utilityMqttWriteUint16 rule.data.len ++ rows

def encodeRules : List LuaRule → Except EncodeError Bytes
  | [] => .ok []
  | rule :: rules => do
    let buff ← encodeRule rule
    let rest ← encodeRules rules
    return buff ++ rest

def encodeGroup (g : RuleGroup) : Except EncodeError Bytes :=
  if g.policys = [] then .error (.lua .returnNil)
  else do
    let uri ← encodeString g.uri
    let backend ← encodeString g.backend
    let text ← encodeString (g.text.getD [])
    let rules ← encodeRules g.policys
    return uri ++ utilityMqttWriteUint16 g.action ++ backend ++ text ++
      utilityMqttWriteUint16 g.policys.length ++ rules

def encodeGroups : List RuleGroup → Except EncodeError Bytes
  | [] => .ok []
  | g :: gs => do
    let buff ← encodeGroup g
    let rest ← encodeGroups gs
    return buff ++ rest

def encodePolicy (divRules : List RuleGroup) : Except EncodeError Bytes :=
  if divRules = [] then .error (.lua .returnNil)
  else do
    let groups ← encodeGroups divRules
    return utilityMqttWriteUint16 divRules.length ++ groups

/-! ## The claimed round trip -/

/-- The attributes that come back. -/
structure SameRuleGroup (g : RuleGroup) (l : LuaGroup) : Prop where
  uri : l.uri = g.uri
  action : l.action = g.action
  backend : l.backend = g.backend
  text : some l.text = g.text
  policys : l.policys = g.policys.map LuaRule.id

/-- The decoder gets the groups back out of `m`, whatever lies in memory behind its strings. -/
def RoundTrips (m : Bytes) (gs : List RuleGroup) : Prop :=
  ∀ after, ∃ out, decodePolicy after m = .ok out ∧ List.Forall₂ SameRuleGroup gs out

/-! ## The decoder's layout -/

/-- Bytes of one row. -/
def rowWidth (type : Bytes) : Nat := if type ∈ luaRangeTypes then 16 else if type ∈ luaSetTypes then 8 else 4

/-- What the decoder takes for a policy. -/
structure RuleEntry where
  id : Nat
  type : Bytes
  bitset : Nat
  dlen : Nat
  rows : Bytes
  id_lt : id < 2 ^ 32
  type_mem : type ∈ luaRangeTypes ++ luaSetTypes ++ luaNumTypes
  dlen_lt : dlen < 2 ^ 16
  dlen_pos : type ∉ luaSetTypes → dlen ≠ 0
  rows_length : rows.length = rowWidth type * dlen

def RuleEntry.bytes (e : RuleEntry) : Bytes :=
  utilityMqttWriteUint32 e.id ++ (utf8Bytes e.type ++ (utilityMqttWriteUint16 e.bitset ++
    (utilityMqttWriteUint16 e.dlen ++ e.rows)))

/-- Of the `k` ids that stand at `tail`, a string with its terminator, those of `ids` are `pids`. What is
missing of an id is found behind the string, so none of `ids` begins with the rest of it. -/
inductive IdsAt (ids : List Nat) : Nat → Bytes → List Nat → Prop
  | nil (tail : Bytes) : IdsAt ids 0 tail []
  | known {k x : Nat} {tail : Bytes} {pids : List Nat} : x < 2 ^ 32 → utilityMqttWriteUint32 x <+: tail ++ [0] →
      x ∈ ids → IdsAt ids k (tail.drop 4) pids → IdsAt ids (k + 1) tail (x :: pids)
  | other {k x : Nat} {tail : Bytes} {pids : List Nat} : x < 2 ^ 32 → utilityMqttWriteUint32 x <+: tail ++ [0] →
      x ∉ ids → IdsAt ids k (tail.drop 4) pids → IdsAt ids (k + 1) tail pids
  | behind {k : Nat} {tail : Bytes} {pids : List Nat} : tail.length < 3 →
      (∀ x ∈ ids, ¬ tail ++ [0] <+: utilityMqttWriteUint32 x) → IdsAt ids k [] pids → IdsAt ids (k + 1) tail pids

/-- The groups stand at `bs` in the decoder's layout: each with a list of ids instead of policies. -/
def CopyAt (ids : List Nat) : List RuleGroup → Bytes → Prop
  | [], _ => True
  | g :: gs, bs =>
    ∃ text k tail, g.text = some text ∧ g.action < 2 ^ 16 ∧ k < 2 ^ 16 ∧
      (g.uri.length ≤ 65535 ∧ g.backend.length ≤ 65535 ∧ text.length ≤ 65535) ∧
      bs = utf8Bytes g.uri ++ (utilityMqttWriteUint16 g.action ++ (utf8Bytes g.backend ++ (utf8Bytes text ++
        (utilityMqttWriteUint16 k ++ tail)))) ∧
      IdsAt ids k tail (g.policys.map LuaRule.id) ∧ CopyAt ids gs (tail.drop (4 * k))

/-- The encoder's rows: none for a set, whose numbers it leaves out. -/
def rowsWire (type : Bytes) (data : LuaData) : Bytes :=
  if type ∈ luaSetTypes then []
  else
    match data with
    | .ranges rs => rs.flatMap fun r => luaWriteUint64 r.1 ++ luaWriteUint64 r.2
    | .set vals => vals.flatMap luaWriteUint32

def ruleWire (rule : LuaRule) : Bytes :=
  utilityMqttWriteUint32 rule.id ++ (utf8Bytes rule.type ++ (utilityMqttWriteUint16 rule.data.len ++
    rowsWire rule.type rule.data))

def groupWire (g : RuleGroup) : Bytes :=
  utf8Bytes g.uri ++ (utilityMqttWriteUint16 g.action ++ (utf8Bytes g.backend ++ (utf8Bytes (g.text.getD []) ++
    (utilityMqttWriteUint16 g.policys.length ++ g.policys.flatMap ruleWire))))

/-- Behind the count the groups as they are written begin with as many policies of the decoder as
there are groups, their number, and the groups again. -/
def SecondCopy (gs : List RuleGroup) : Prop :=
  gs.length < 2 ^ 16 ∧ ∃ (es : List RuleEntry) (copy : Bytes), es.length = gs.length ∧
    gs.flatMap groupWire = es.flatMap RuleEntry.bytes ++ (utilityMqttWriteUint16 gs.length ++ copy) ∧
    CopyAt (es.map RuleEntry.id) gs copy

/-! ## What is written -/

theorem encodeString_eq_ok {s b : Bytes} (h : encodeString s = .ok b) : b = utf8Bytes s := by
  rw [encodeString] at h
  cases he : encodeUtf8 s with
  | error e =>
    rw [he] at h
    cases h
  | ok c =>
    rw [he] at h
    obtain rfl := Except.ok.inj h
    exact (encodeUtf8_eq_ok he).2

theorem encodeData_eq_ok {type : Bytes} {data : LuaData} {rows : Bytes} (h : encodeData type data = .ok rows) :
    rows = rowsWire type data := by
  have hno : ∀ t ∈ luaRangeTypes ++ luaNumTypes, t ∉ luaSetTypes := by decide
  unfold encodeData at h
  unfold rowsWire
  by_cases hrange : type ∈ luaRangeTypes
  · rw [if_neg (hno _ (List.mem_append_left _ hrange))]
    rw [if_pos hrange] at h
    split at h
    · cases h
    · cases data with
      | ranges rs => exact (Except.ok.inj h).symm
      | set vals => cases h
  · rw [if_neg hrange] at h
    by_cases hset : type ∈ luaSetTypes
    · rw [if_pos hset] at h ⊢
      exact (Except.ok.inj h).symm
    · rw [if_neg hset] at h ⊢
      split at h
      · split at h
        · cases h
        · cases data with
          | ranges rs => cases h
          | set vals => exact (Except.ok.inj h).symm
      · cases h

theorem encodeRule_eq_ok {rule : LuaRule} {b : Bytes} (h : encodeRule rule = .ok b) : b = ruleWire rule := by
  obtain ⟨type, htype, h⟩ := bind_eq_ok.1 h
  obtain ⟨rows, hrows, h⟩ := bind_eq_ok.1 h
  obtain rfl := encodeString_eq_ok htype
  obtain rfl := encodeData_eq_ok hrows
  obtain rfl := Except.ok.inj h
  simp only [ruleWire, List.append_assoc]

theorem encodeRules_eq_ok {rules : List LuaRule} {b : Bytes} (h : encodeRules rules = .ok b) :
    b = rules.flatMap ruleWire := by
  induction rules generalizing b with
  | nil => exact (Except.ok.inj h).symm
  | cons rule rules ih =>
    obtain ⟨buff, hbuff, h⟩ := bind_eq_ok.1 h
    obtain ⟨rest, hrest, h⟩ := bind_eq_ok.1 h
    obtain rfl := encodeRule_eq_ok hbuff
    obtain rfl := ih hrest
    exact (Except.ok.inj h).symm

theorem encodeGroup_eq_ok {g : RuleGroup} {b : Bytes} (h : encodeGroup g = .ok b) :
    g.policys ≠ [] ∧ b = groupWire g := by
  rw [encodeGroup] at h
  by_cases hp : g.policys = []
  · rw [if_pos hp] at h
    cases h
  · rw [if_neg hp] at h
    obtain ⟨uri, huri, h⟩ := bind_eq_ok.1 h
    obtain ⟨backend, hbackend, h⟩ := bind_eq_ok.1 h
    obtain ⟨text, htext, h⟩ := bind_eq_ok.1 h
    obtain ⟨rules, hrules, h⟩ := bind_eq_ok.1 h
    obtain rfl := encodeString_eq_ok huri
    obtain rfl := encodeString_eq_ok hbackend
    obtain rfl := encodeString_eq_ok htext
    obtain rfl := encodeRules_eq_ok hrules
    obtain rfl := Except.ok.inj h
    exact ⟨hp, by simp only [groupWire, List.append_assoc]⟩

theorem encodeGroups_eq_ok {gs : List RuleGroup} {b : Bytes} (h : encodeGroups gs = .ok b) :
    (∀ g ∈ gs, g.policys ≠ []) ∧ b = gs.flatMap groupWire := by
  induction gs generalizing b with
  | nil => exact ⟨by simp, (Except.ok.inj h).symm⟩
  | cons g gs ih =>
    obtain ⟨buff, hbuff, h⟩ := bind_eq_ok.1 h
    obtain ⟨rest, hrest, h⟩ := bind_eq_ok.1 h
    obtain ⟨hg, rfl⟩ := encodeGroup_eq_ok hbuff
    obtain ⟨hgs, rfl⟩ := ih hrest
    exact ⟨List.forall_mem_cons.2 ⟨hg, hgs⟩, (Except.ok.inj h).symm⟩

/-- An accepted list, and its message. -/
theorem encodePolicy_eq_ok {gs : List RuleGroup} {m : Bytes} (h : encodePolicy gs = .ok m) :
    gs ≠ [] ∧ (∀ g ∈ gs, g.policys ≠ []) ∧ m = utilityMqttWriteUint16 gs.length ++ gs.flatMap groupWire := by
  rw [encodePolicy] at h
  by_cases hnil : gs = []
  · rw [if_pos hnil] at h
    cases h
  · rw [if_neg hnil] at h
    obtain ⟨groups, hgroups, h⟩ := bind_eq_ok.1 h
    obtain ⟨hgs, rfl⟩ := encodeGroups_eq_ok hgroups
    exact ⟨hnil, hgs, (Except.ok.inj h).symm⟩

/-! ## Reading inside a string -/

theorem exists_toBe {k : Nat} {bs : Bytes} (h : k ≤ bs.length) : ∃ n < 256 ^ k, bs = toBe k n ++ bs.drop k := by
  refine ⟨be k (bs ++ₛ Stream'.const 0), be_lt _ _, ?_⟩
  rw [toBe_be, Stream'.take_append_of_le_length _ _ _ h, List.take_append_drop]

theorem exists_writeUint16 {bs : Bytes} (h : 2 ≤ bs.length) :
    ∃ n < 2 ^ 16, bs = utilityMqttWriteUint16 n ++ bs.drop 2 := by
  obtain ⟨n, hn, hbs⟩ := exists_toBe h
  exact ⟨n, hn, by rwa [writeUint16_eq_toBe]⟩

theorem exists_writeUint32 {bs : Bytes} (h : 4 ≤ bs.length) :
    ∃ n < 2 ^ 32, bs = utilityMqttWriteUint32 n ++ bs.drop 4 := by
  obtain ⟨n, hn, hbs⟩ := exists_toBe h
  exact ⟨n, hn, by rwa [writeUint32_eq_toBe]⟩

theorem two_le_of_decodeUtf8 {bs s rest : Bytes} (h : decodeUtf8 bs = .ok (s, rest)) : 2 ≤ bs.length := by
  by_contra hlt
  rw [decodeUtf8_short (by omega)] at h
  cases h

/-- A string with something behind it is whole. -/
theorem decodeUtf8_whole {bs s rest : Bytes} (h : decodeUtf8 bs = .ok (s, rest)) (hne : rest ≠ []) :
    s.length ≤ 65535 ∧ bs = utf8Bytes s ++ rest := by
  obtain ⟨n, hn, hbs⟩ := exists_writeUint16 (two_le_of_decodeUtf8 h)
  generalize bs.drop 2 = body at hbs
  rw [hbs, decodeUtf8_write_len (by omega)] at h
  obtain ⟨rfl, rfl⟩ := Prod.mk.inj (Except.ok.inj h)
  have hlt : n < body.length := by
    by_contra hle
    exact hne (List.drop_eq_nil_of_le (by omega))
  have hlen : (body.take n).length = n := List.length_take_of_le (by omega)
  refine ⟨by omega, ?_⟩
  rw [hbs, utf8Bytes, hlen, List.append_assoc, List.take_append_drop]

/-! ## Ids -/

theorem readMany_ids (after : Behind) (k : Nat) (tail : Bytes) : (readMany (luaReadUint32 after) (k + 1) tail).1 =
    (luaReadUint32 after tail).1 :: (readMany (luaReadUint32 after) k (tail.drop 4)).1 := rfl

/-- The memory of a string begins with the string and its terminator. -/
theorem luaMem_eq (after : Behind) (bs : Bytes) : luaMem after bs = bs ++ [0] ++ₛ after bs :=
  (Stream'.append_append_stream bs [0] (after bs)).symm

theorem writeUint32_read (after : Behind) (bs : Bytes) :
    utilityMqttWriteUint32 (luaReadUint32 after bs).1 = (luaMem after bs).take 4 := by
  rw [luaReadUint32, readUint32_eq_be, writeUint32_eq_toBe, toBe_be]

theorem read_of_prefix (after : Behind) {x : Nat} (hx : x < 2 ^ 32) {bs : Bytes}
    (h : utilityMqttWriteUint32 x <+: bs ++ [0]) : (luaReadUint32 after bs).1 = x := by
  obtain ⟨t, ht⟩ := h
  rw [luaReadUint32, luaMem_eq, ← ht, Stream'.append_append_stream, readUint32_write, Nat.mod_eq_of_lt hx]

theorem prefix_read (after : Behind) {bs : Bytes} (h : bs.length < 4) :
    bs ++ [0] <+: utilityMqttWriteUint32 (luaReadUint32 after bs).1 := by
  have htake : (bs ++ [0] ++ₛ after bs).take (bs.length + 1) = bs ++ [0] :=
    take_append_of_eq _ _ (by rw [List.length_append]; rfl)
  have hprefix := Stream'.take_prefix_take_left (bs.length + 1) 4 (bs ++ [0] ++ₛ after bs) (by omega)
  rwa [htake, ← luaMem_eq, ← writeUint32_read] at hprefix

/-- Memory behind which no short string is read as `x`: its bytes are not the last byte of `x`. -/
theorem exists_unread (x : Nat) : ∃ after : Behind, ∀ bs : Bytes, bs.length < 3 → (luaReadUint32 after bs).1 ≠ x := by
  have hlast : ∀ (c : UInt8) (bs : Bytes), bs.length < 3 →
      ((luaMem (fun _ => Stream'.const c) bs).take 4)[3]? = some c := by
    intro c bs hbs
    match bs with
    | [] | [_] | [_, _] => rfl
    | _ :: _ :: _ :: _ => exact absurd hbs (by simp)
  have hx : (utilityMqttWriteUint32 x)[3]? = some (UInt8.ofNat (x &&& 0xff)) := rfl
  generalize UInt8.ofNat (x &&& 0xff) = b at hx
  refine ⟨fun _ => Stream'.const (b + 1), fun bs hbs hread => ?_⟩
  rw [← hread, writeUint32_read, hlast _ _ hbs] at hx
  simp at hx

/-- Behind the end of a string every number that is read is the same. -/
theorem mem_readMany_nil {after : Behind} {k x : Nat} (h : x ∈ (readMany (luaReadUint32 after) k []).1) :
    x = (luaReadUint32 after []).1 := by
  induction k with
  | zero => cases h
  | succ k ih =>
    rcases List.mem_cons.1 h with rfl | h
    · rfl
    · exact ih h

theorem filter_of_idsAt {ids pids : List Nat} {k : Nat} {tail : Bytes} (h : IdsAt ids k tail pids) (after : Behind) :
    (readMany (luaReadUint32 after) k tail).1.filter (fun pid => decide (pid ∈ ids)) = pids := by
  induction h with
  | nil tail => rfl
  | known hx hprefix hmem _ ih =>
    rw [readMany_ids, read_of_prefix after hx hprefix, List.filter_cons_of_pos (by simpa using hmem), ih]
  | other hx hprefix hmem _ ih =>
    rw [readMany_ids, read_of_prefix after hx hprefix, List.filter_cons_of_neg (by simpa using hmem), ih]
  | @behind k tail pids hlen hnone _ ih =>
    have hmem : (luaReadUint32 after tail).1 ∉ ids := fun hmem => hnone _ hmem (prefix_read after (by omega))
    rw [readMany_ids, List.filter_cons_of_neg (by simpa using hmem),
      List.drop_eq_nil_of_le (by omega : tail.length ≤ 4), ih]

/-- An id that is not whole is none of `ids` when the list that comes back is always the same. -/
theorem not_prefix_of_filter {ids pids : List Nat} (hlt : ∀ x ∈ ids, x < 2 ^ 32) {k : Nat} {tail : Bytes}
    (htail : tail.length < 3)
    (h : ∀ after, (readMany (luaReadUint32 after) (k + 1) tail).1.filter (fun pid => decide (pid ∈ ids)) = pids) :
    ∀ x ∈ ids, ¬ tail ++ [0] <+: utilityMqttWriteUint32 x := by
  intro x hx hprefix
  obtain ⟨t, ht⟩ := hprefix
  -- Where the missing bytes lie behind the string the id is read ...
  have hread : (luaReadUint32 (fun _ => t ++ₛ Stream'.const 0) tail).1 = x := by
    rw [luaReadUint32, luaMem_eq, ← Stream'.append_append_stream, ht, readUint32_write, Nat.mod_eq_of_lt (hlt x hx)]
  have hmem : x ∈ pids := by
    rw [← h fun _ => t ++ₛ Stream'.const 0, readMany_ids, hread]
    exact List.mem_filter.2 ⟨List.mem_cons_self, decide_eq_true hx⟩
  -- ... and elsewhere it is not.
  obtain ⟨after, hafter⟩ := exists_unread x
  rw [← h after, readMany_ids, List.drop_eq_nil_of_le (by omega : tail.length ≤ 4)] at hmem
  rcases List.mem_cons.1 (List.mem_filter.1 hmem).1 with hx | hx
  · exact hafter tail htail hx.symm
  · exact hafter [] (by decide) (mem_readMany_nil hx).symm

theorem idsAt_of_filter {ids pids : List Nat} (hlt : ∀ x ∈ ids, x < 2 ^ 32) {k : Nat} {tail : Bytes}
    (h : ∀ after, (readMany (luaReadUint32 after) k tail).1.filter (fun pid => decide (pid ∈ ids)) = pids) :
    IdsAt ids k tail pids := by
  induction k generalizing tail pids with
  | zero =>
    obtain rfl := h fun _ => Stream'.const 0
    exact .nil tail
  | succ k ih =>
    by_cases htail : tail.length < 3
    · have hnone := not_prefix_of_filter hlt htail h
      refine .behind htail hnone (ih fun after => ?_)
      have hmem : (luaReadUint32 after tail).1 ∉ ids := fun hmem => hnone _ hmem (prefix_read after (by omega))
      rw [← h after, readMany_ids, List.filter_cons_of_neg (by simpa using hmem),
        List.drop_eq_nil_of_le (by omega : tail.length ≤ 4)]
    · have hlen : 4 ≤ (tail ++ [0]).length := by
        rw [List.length_append, List.length_singleton]
        omega
      obtain ⟨x, hx, hbs⟩ := exists_writeUint32 hlen
      have hprefix : utilityMqttWriteUint32 x <+: tail ++ [0] := ⟨_, hbs.symm⟩
      by_cases hmem : x ∈ ids
      · have hcons : ∀ after, x :: (readMany (luaReadUint32 after) k (tail.drop 4)).1.filter
            (fun pid => decide (pid ∈ ids)) = pids := by
          intro after
          rw [← h after, readMany_ids, read_of_prefix after hx hprefix, List.filter_cons_of_pos (by simpa using hmem)]
        obtain rfl := hcons fun _ => Stream'.const 0
        exact .known hx hprefix hmem (ih fun after => (List.cons.inj (hcons after)).2)
      · refine .other hx hprefix hmem (ih fun after => ?_)
        rw [← h after, readMany_ids, read_of_prefix after hx hprefix, List.filter_cons_of_neg (by simpa using hmem)]

section Decode

variable (after : Behind)

/-! ## Policies -/

/-- What an accepted policy takes of the message. -/
theorem decodeRule_eq_ok {bs rest : Bytes} {r : LuaRule} (h : decodeRule after bs = .ok (r, rest)) :
    ∃ bs₁ dlen, decodeUtf8 (bs.drop 4) = .ok (r.type, bs₁) ∧ r.id = (luaReadUint32 after bs).1 ∧
      dlen = (luaReadUint16 after (bs₁.drop 2)).1 ∧ r.type ∈ luaRangeTypes ++ luaSetTypes ++ luaNumTypes ∧
      (r.type ∉ luaSetTypes → dlen ≠ 0) ∧ rest = (bs₁.drop 4).drop (rowWidth r.type * dlen) := by
  obtain ⟨⟨type, bs₁⟩, htype, h⟩ := bind_eq_ok.1 h
  have hdrop : (luaReadUint16 after (luaReadUint16 after bs₁).2).2 = bs₁.drop 4 := List.drop_drop
  have hlen : (luaReadUint16 after (luaReadUint16 after bs₁).2).1 = (luaReadUint16 after (bs₁.drop 2)).1 := rfl
  simp only [hdrop, hlen] at h
  refine ⟨bs₁, (luaReadUint16 after (bs₁.drop 2)).1, ?_⟩
  generalize (luaReadUint16 after (bs₁.drop 2)).1 = dlen at h ⊢
  generalize bs₁.drop 4 = body at h ⊢
  by_cases hrange : type ∈ luaRangeTypes
  · rw [if_pos hrange] at h
    split at h
    · cases h
    · rename_i hpos
      obtain ⟨rfl, rfl⟩ := Prod.mk.inj (Except.ok.inj h)
      refine ⟨htype, rfl, rfl, ?_, fun _ => by omega, ?_⟩
      · exact List.mem_append_left _ (List.mem_append_left _ hrange)
      · rw [snd_readMany (snd_luaReadRange after), rowWidth, if_pos hrange]
  · rw [if_neg hrange] at h
    by_cases hset : type ∈ luaSetTypes
    · rw [if_pos hset] at h
      obtain ⟨rfl, rfl⟩ := Prod.mk.inj (Except.ok.inj h)
      refine ⟨htype, rfl, rfl, ?_, fun hn => absurd hset hn, ?_⟩
      · exact List.mem_append_left _ (List.mem_append_right _ hset)
      · rw [snd_readMany (w := 8) (fun _ => rfl), rowWidth, if_neg hrange, if_pos hset]
    · rw [if_neg hset] at h
      by_cases hnum : type ∈ luaNumTypes
      · rw [if_pos hnum] at h
        split at h
        · cases h
        · rename_i hpos
          obtain ⟨rfl, rfl⟩ := Prod.mk.inj (Except.ok.inj h)
          refine ⟨htype, rfl, rfl, ?_, fun _ => by omega, ?_⟩
          · exact List.mem_append_right _ hnum
          · rw [snd_readMany (w := 4) (fun _ => rfl), rowWidth, if_neg hrange, if_neg hset]
      · rw [if_neg hnum] at h
        cases h

theorem rows_split {type : Bytes} (h : type ∈ luaRangeTypes ++ luaSetTypes ++ luaNumTypes) :
    (type ∈ luaRangeTypes ∧ type ∉ luaSetTypes ∧ rowWidth type = 16) ∨
      (type ∉ luaRangeTypes ∧ type ∈ luaSetTypes ∧ rowWidth type = 8) ∨
        (type ∉ luaRangeTypes ∧ type ∉ luaSetTypes ∧ type ∈ luaNumTypes ∧ rowWidth type = 4) := by
  have hall : ∀ t ∈ luaRangeTypes ++ luaSetTypes ++ luaNumTypes,
      (t ∈ luaRangeTypes ∧ t ∉ luaSetTypes ∧ rowWidth t = 16) ∨ (t ∉ luaRangeTypes ∧ t ∈ luaSetTypes ∧ rowWidth t = 8) ∨
        (t ∉ luaRangeTypes ∧ t ∉ luaSetTypes ∧ t ∈ luaNumTypes ∧ rowWidth t = 4) := by decide
  exact hall type h

/-- An entry is accepted, with nothing taken of what follows it. -/
theorem decodeRule_ruleEntry (e : RuleEntry) (rest : Bytes) :
    ∃ r : LuaRule, r.id = e.id ∧ decodeRule after (e.bytes ++ rest) = .ok (r, rest) := by
  have hid : e.id % 2 ^ 32 = e.id := Nat.mod_eq_of_lt e.id_lt
  have hdlen : e.dlen ≤ 65535 := by have := e.dlen_lt; omega
  have hrows := e.rows_length
  rw [RuleEntry.bytes]
  simp only [List.append_assoc]
  rw [decodeRule_head after (mem_luaTypes_length e.type_mem) hdlen, hid]
  rcases rows_split e.type_mem with ⟨hr, hs, hw⟩ | ⟨hr, hs, hw⟩ | ⟨hr, hs, hn, hw⟩
  · rw [hw] at hrows
    obtain ⟨xs, hxs⟩ := readMany_append (snd_luaReadRange after) hrows rest
    rw [if_pos hr, if_neg (e.dlen_pos hs), hxs]
    exact ⟨_, rfl, rfl⟩
  · rw [hw] at hrows
    obtain ⟨xs, hxs⟩ := readMany_append (fun _ => rfl : ∀ bs, (luaReadUint64 after bs).2 = bs.drop 8) hrows rest
    rw [if_neg hr, if_pos hs, hxs]
    exact ⟨_, rfl, rfl⟩
  · rw [hw] at hrows
    obtain ⟨xs, hxs⟩ := readMany_append (fun _ => rfl : ∀ bs, (luaReadUint32 after bs).2 = bs.drop 4) hrows rest
    rw [if_neg hr, if_neg hs, if_pos hn, if_neg (e.dlen_pos hs), hxs]
    exact ⟨_, rfl, rfl⟩

/-- What is accepted with something behind it is an entry. -/
theorem ruleEntry_of_decodeRule {bs rest : Bytes} {r : LuaRule} (h : decodeRule after bs = .ok (r, rest))
    (hne : rest ≠ []) :
    ∃ e : RuleEntry, r.id = e.id ∧ bs = e.bytes ++ rest := by
  obtain ⟨bs₁, dlen, htype, hid, hdlen, hmem, hpos, hrest⟩ := decodeRule_eq_ok after h
  have hlong : 4 + rowWidth r.type * dlen < bs₁.length := by
    by_contra hle
    refine hne (hrest.trans ?_)
    rw [List.drop_drop]
    exact List.drop_eq_nil_of_le (by omega)
  have hne₁ : bs₁ ≠ [] := List.length_pos_iff.1 (by omega)
  have hbs : 4 ≤ bs.length := by
    have := two_le_of_decodeUtf8 htype
    rw [List.length_drop] at this
    omega
  obtain ⟨id, hidlt, hbs⟩ := exists_writeUint32 hbs
  obtain ⟨bitset, -, hbs₁⟩ := exists_writeUint16 (by omega : 2 ≤ bs₁.length)
  obtain ⟨n, hn, hbs₂⟩ := exists_writeUint16 (by rw [List.length_drop]; omega : 2 ≤ (bs₁.drop 2).length)
  rw [hbs₂, luaReadUint16_write, Nat.mod_eq_of_lt hn] at hdlen
  obtain rfl := hdlen
  rw [hbs, luaReadUint32_write, Nat.mod_eq_of_lt hidlt] at hid
  rw [List.drop_drop] at hbs₂
  have hlen : ((bs₁.drop 4).take (rowWidth r.type * dlen)).length = rowWidth r.type * dlen := by
    rw [List.length_take, List.length_drop]
    omega
  refine ⟨⟨id, r.type, bitset, dlen, _, hidlt, hmem, hn, hpos, hlen⟩, hid, ?_⟩
  have hwhole := (decodeUtf8_whole htype hne₁).2
  rw [RuleEntry.bytes, hrest]
  simp only [List.append_assoc]
  rw [List.take_append_drop]
  calc bs = utilityMqttWriteUint32 id ++ bs.drop 4 := hbs
    _ = utilityMqttWriteUint32 id ++ (utf8Bytes r.type ++ bs₁) := by rw [hwhole]
    _ = _ := by conv_lhs => rw [hbs₁, hbs₂]

theorem times_entries {n : Nat} {es : List RuleEntry} (hn : es.length = n) (rest : Bytes) :
    ∃ rs, times (decodeRule after) n (es.flatMap RuleEntry.bytes ++ rest) = .ok (rs, rest) ∧
      rs.1.map LuaRule.id = es.map RuleEntry.id := by
  subst hn
  induction es with
  | nil => exact ⟨_, rfl, rfl⟩
  | cons e es ih =>
    obtain ⟨rs, hrs, hids⟩ := ih
    obtain ⟨r, hid, hr⟩ := decodeRule_ruleEntry after e (es.flatMap RuleEntry.bytes ++ rest)
    refine ⟨⟨r :: rs.1, by rw [List.length_cons, List.length_cons, rs.2]⟩, ?_, ?_⟩
    · rw [List.flatMap_cons, List.append_assoc]
      exact times_succ_eq_ok.2 ⟨r, _, rs, hr, hrs, rfl⟩
    · rw [List.map_cons, List.map_cons, hids, hid]

theorem entries_of_times {n : Nat} {bs rest : Bytes} {rs : {rs : List LuaRule // rs.length = n}}
    (h : times (decodeRule after) n bs = .ok (rs, rest)) (hne : rest ≠ []) :
    ∃ es : List RuleEntry, es.length = n ∧ bs = es.flatMap RuleEntry.bytes ++ rest := by
  induction n generalizing bs with
  | zero =>
    obtain ⟨-, rfl⟩ := Prod.mk.inj (Except.ok.inj h)
    exact ⟨[], rfl, rfl⟩
  | succ n ih =>
    obtain ⟨r, t, rs', hr, hrs, -⟩ := times_succ_eq_ok.1 h
    obtain ⟨es, hlen, ht⟩ := ih hrs
    have htne : t ≠ [] := by
      rw [ht]
      exact fun hnil => hne (List.append_eq_nil_iff.1 hnil).2
    obtain ⟨e, -, hbs⟩ := ruleEntry_of_decodeRule after hr htne
    refine ⟨e :: es, by rw [List.length_cons, hlen], ?_⟩
    rw [hbs, ht, List.flatMap_cons, List.append_assoc]

/-! ## Groups -/

theorem filter_any (rules : List LuaRule) (pids : List Nat) :
    (pids.filter fun pid => rules.any fun p => p.id == pid) =
      pids.filter fun pid => decide (pid ∈ rules.map LuaRule.id) := by
  refine List.filter_congr fun pid _ => ?_
  rw [Bool.eq_iff_iff, List.any_eq_true, decide_eq_true_iff, List.mem_map]
  simp only [beq_iff_eq]

theorem decodeGroup_eq_ok {rules : List LuaRule} {bs rest : Bytes} {l : LuaGroup}
    (h : decodeGroup after rules bs = .ok (l, rest)) :
    ∃ bs₁ bs₂ bs₃, decodeUtf8 bs = .ok (l.uri, bs₁) ∧ l.action = (luaReadUint16 after bs₁).1 ∧
      decodeUtf8 (bs₁.drop 2) = .ok (l.backend, bs₂) ∧ decodeUtf8 bs₂ = .ok (l.text, bs₃) ∧
      l.policys = (readMany (luaReadUint32 after) (luaReadUint16 after bs₃).1 (bs₃.drop 2)).1.filter
        (fun pid => decide (pid ∈ rules.map LuaRule.id)) ∧
      rest = (bs₃.drop 2).drop (4 * (luaReadUint16 after bs₃).1) := by
  obtain ⟨⟨uri, bs₁⟩, huri, h⟩ := bind_eq_ok.1 h
  obtain ⟨⟨backend, bs₂⟩, hbackend, h⟩ := bind_eq_ok.1 h
  obtain ⟨⟨text, bs₃⟩, htext, h⟩ := bind_eq_ok.1 h
  obtain ⟨rfl, rfl⟩ := Prod.mk.inj (Except.ok.inj h)
  exact ⟨bs₁, bs₂, bs₃, huri, rfl, hbackend, htext, filter_any _ _, snd_readMany (fun _ => rfl) _ _⟩

/-- A group in the decoder's layout. -/
theorem decodeGroup_head (rules : List LuaRule) {uri backend text : Bytes} {action k : Nat} (hu : uri.length ≤ 65535)
    (hb : backend.length ≤ 65535) (ht : text.length ≤ 65535) (ha : action < 2 ^ 16) (hk : k < 2 ^ 16) (tail : Bytes) :
    ∃ l : LuaGroup, (l.uri = uri ∧ l.action = action ∧ l.backend = backend ∧ l.text = text ∧
        l.policys = (readMany (luaReadUint32 after) k tail).1.filter
          (fun pid => decide (pid ∈ rules.map LuaRule.id))) ∧
      decodeGroup after rules (utf8Bytes uri ++ (utilityMqttWriteUint16 action ++ (utf8Bytes backend ++
        (utf8Bytes text ++ (utilityMqttWriteUint16 k ++ tail))))) = .ok (l, tail.drop (4 * k)) := by
  refine ⟨⟨uri, action, backend, text, _⟩, ⟨rfl, rfl, rfl, rfl, filter_any _ _⟩, ?_⟩
  rw [decodeGroup, decodeUtf8_utf8 hu, ok_bind]
  simp only [luaReadUint16_write, Nat.mod_eq_of_lt ha]
  rw [decodeUtf8_utf8 hb, ok_bind]
  simp only
  rw [decodeUtf8_utf8 ht, ok_bind]
  simp only [luaReadUint16_write, Nat.mod_eq_of_lt hk]
  exact congrArg (fun rest => Except.ok (_, rest)) (snd_readMany (fun _ => rfl) k tail)

theorem times_copy {ids : List Nat} {rules : List LuaRule} (hids : rules.map LuaRule.id = ids) {gs : List RuleGroup}
    {bs : Bytes} (h : CopyAt ids gs bs) :
    ∃ out rest, times (decodeGroup after rules) gs.length bs = .ok (out, rest) ∧
      List.Forall₂ SameRuleGroup gs out.1 := by
  induction gs generalizing bs with
  | nil => exact ⟨_, bs, rfl, .nil⟩
  | cons g gs ih =>
    obtain ⟨text, k, tail, htext, ha, hk, ⟨hu, hb, ht⟩, rfl, hpids, hcopy⟩ := h
    obtain ⟨l, ⟨h1, h2, h3, h4, h5⟩, hl⟩ := decodeGroup_head after rules hu hb ht ha hk tail
    obtain ⟨out, rest, hout, hsame⟩ := ih hcopy
    have hg : SameRuleGroup g l := ⟨h1, h2, h3, by rw [h4, htext], by rw [h5, hids]; exact filter_of_idsAt hpids after⟩
    exact ⟨⟨l :: out.1, by rw [List.length_cons, List.length_cons, out.2]⟩, rest,
      times_succ_eq_ok.2 ⟨l, _, out, hl, hout, rfl⟩, .cons hg hsame⟩

end Decode

/-- A list of ids that is not empty does not come from behind the end: other memory, other ids. -/
theorem drop_two_ne_nil {bs₃ : Bytes} {ids pids : List Nat} (hne : pids ≠ [])
    (h : ∀ after, pids = (readMany (luaReadUint32 after) (luaReadUint16 after bs₃).1 (bs₃.drop 2)).1.filter
      (fun pid => decide (pid ∈ ids))) : bs₃.drop 2 ≠ [] := by
  intro hnil
  obtain ⟨x, hx⟩ := List.exists_mem_of_ne_nil _ hne
  obtain ⟨after, hafter⟩ := exists_unread x
  have hmem := h after ▸ hx
  rw [hnil] at hmem
  exact hafter [] (by decide) (mem_readMany_nil (List.mem_filter.1 hmem).1).symm

/-- The strings of the first group are the same whatever is behind them, and so is what is read between. -/
theorem group_of_times {ids : List Nat} {g : RuleGroup} {gs : List RuleGroup} {bs : Bytes}
    (h : ∀ after, ∃ rules out rest, rules.map LuaRule.id = ids ∧
      times (decodeGroup after rules) (gs.length + 1) bs = .ok (out, rest) ∧
        List.Forall₂ SameRuleGroup (g :: gs) out.1) :
    ∃ text bs₁ bs₂ bs₃, g.text = some text ∧ decodeUtf8 bs = .ok (g.uri, bs₁) ∧
      decodeUtf8 (bs₁.drop 2) = .ok (g.backend, bs₂) ∧ decodeUtf8 bs₂ = .ok (text, bs₃) ∧
      ∀ after, g.action = (luaReadUint16 after bs₁).1 ∧
        g.policys.map LuaRule.id = (readMany (luaReadUint32 after) (luaReadUint16 after bs₃).1 (bs₃.drop 2)).1.filter
          (fun pid => decide (pid ∈ ids)) ∧
        ∃ rules out rest, rules.map LuaRule.id = ids ∧ times (decodeGroup after rules) gs.length
          ((bs₃.drop 2).drop (4 * (luaReadUint16 after bs₃).1)) = .ok (out, rest) ∧
            List.Forall₂ SameRuleGroup gs out.1 := by
  have hstep : ∀ after, ∃ rules l rest out rest', rules.map LuaRule.id = ids ∧ SameRuleGroup g l ∧
      decodeGroup after rules bs = .ok (l, rest) ∧ times (decodeGroup after rules) gs.length rest = .ok (out, rest') ∧
      List.Forall₂ SameRuleGroup gs out.1 := by
    intro after
    obtain ⟨rules, out, rest', hids, htimes, hsame⟩ := h after
    obtain ⟨l, rest, ys, hl, hys, hout⟩ := times_succ_eq_ok.1 htimes
    rw [hout] at hsame
    cases hsame with
    | cons hg hgs => exact ⟨rules, l, rest, ys, rest', hids, hg, hl, hys, hgs⟩
  obtain ⟨rules₀, l₀, rest₀, -, -, -, hg₀, hl₀, -, -⟩ := hstep fun _ => Stream'.const 0
  obtain ⟨bs₁, bs₂, bs₃, huri, -, hbackend, htext, -, -⟩ := decodeGroup_eq_ok _ hl₀
  refine ⟨l₀.text, bs₁, bs₂, bs₃, hg₀.text.symm, hg₀.uri ▸ huri, hg₀.backend ▸ hbackend, htext, fun after => ?_⟩
  obtain ⟨rules, l, rest, out, rest', hids, hg, hl, hout, hsame⟩ := hstep after
  obtain ⟨c₁, c₂, c₃, huri', haction, hbackend', htext', hpolicys, hrest⟩ := decodeGroup_eq_ok _ hl
  obtain ⟨-, rfl⟩ := Prod.mk.inj (Except.ok.inj (huri.symm.trans huri'))
  obtain ⟨-, rfl⟩ := Prod.mk.inj (Except.ok.inj (hbackend.symm.trans hbackend'))
  obtain ⟨-, rfl⟩ := Prod.mk.inj (Except.ok.inj (htext.symm.trans htext'))
  subst hids
  exact ⟨hg.action ▸ haction, hg.policys ▸ hpolicys, rules, out, rest', rfl, hrest ▸ hout, hsame⟩

theorem copyAt_of_times {ids : List Nat} (hlt : ∀ x ∈ ids, x < 2 ^ 32) {gs : List RuleGroup}
    (hp : ∀ g ∈ gs, g.policys ≠ []) {bs : Bytes}
    (h : ∀ after, ∃ rules out rest, rules.map LuaRule.id = ids ∧
      times (decodeGroup after rules) gs.length bs = .ok (out, rest) ∧ List.Forall₂ SameRuleGroup gs out.1) :
    CopyAt ids gs bs := by
  induction gs generalizing bs with
  | nil => trivial
  | cons g gs ih =>
    obtain ⟨text, bs₁, bs₂, bs₃, hgtext, huri, hbackend, htext, hread⟩ := group_of_times h
    have hids : g.policys.map LuaRule.id ≠ [] := by
      rw [ne_eq, List.map_eq_nil_iff]
      exact hp g List.mem_cons_self
    have htail := drop_two_ne_nil hids fun after => (hread after).2.1
    have hlen₃ : 2 ≤ bs₃.length := by
      by_contra hlt
      exact htail (List.drop_eq_nil_of_le (by omega))
    have hlen₁ : 2 ≤ bs₁.length := by
      by_contra hlt
      have := two_le_of_decodeUtf8 hbackend
      rw [List.length_drop] at this
      omega
    obtain ⟨k, hk, hbs₃⟩ := exists_writeUint16 hlen₃
    obtain ⟨a, ha, hbs₁⟩ := exists_writeUint16 hlen₁
    have hkread : ∀ after, (luaReadUint16 after bs₃).1 = k := by
      intro after
      rw [hbs₃, luaReadUint16_write, Nat.mod_eq_of_lt hk]
    have haread : g.action = a := by
      rw [(hread fun _ => Stream'.const 0).1, hbs₁, luaReadUint16_write, Nat.mod_eq_of_lt ha]
    have hlen₂ := two_le_of_decodeUtf8 htext
    obtain ⟨htextlen, hbs₂⟩ := decodeUtf8_whole htext (List.length_pos_iff.1 (by omega))
    obtain ⟨hbacklen, hdrop₁⟩ := decodeUtf8_whole hbackend (List.length_pos_iff.1 (by omega))
    obtain ⟨hurilen, hbs⟩ := decodeUtf8_whole huri (List.length_pos_iff.1 (by omega))
    refine ⟨text, k, bs₃.drop 2, hgtext, haread ▸ ha, hk, ⟨hurilen, hbacklen, htextlen⟩, ?_, ?_, ?_⟩
    · rw [← hbs₃, ← hbs₂, ← hdrop₁, haread, ← hbs₁]
      exact hbs
    · refine idsAt_of_filter hlt fun after => ?_
      rw [← hkread after]
      exact (hread after).2.1.symm
    · refine ih (fun x hx => hp x (List.mem_cons_of_mem _ hx)) fun after => ?_
      rw [← hkread after]
      exact (hread after).2.2

/-! ## The theorem -/

theorem decodePolicy_eq_ok {after : Behind} {m : Bytes} {out : List LuaGroup} :
    decodePolicy after m = .ok out ↔ ∃ n bs rs t n' bs' os rest,
      luaReadUint16 after m = (n, bs) ∧ times (decodeRule after) n bs = .ok (rs, t) ∧
        luaReadUint16 after t = (n', bs') ∧ times (decodeGroup after rs.1) n' bs' = .ok (os, rest) ∧ os.1 = out := by
  constructor
  · intro h
    obtain ⟨⟨rs, t⟩, hrs, h⟩ := bind_eq_ok.1 h
    obtain ⟨⟨os, rest⟩, hos, h⟩ := bind_eq_ok.1 h
    exact ⟨_, _, rs, t, _, _, os, rest, rfl, hrs, rfl, hos, Except.ok.inj h⟩
  · rintro ⟨n, bs, rs, t, n', bs', os, rest, hn, hrs, hn', hos, rfl⟩
    rw [decodePolicy, hn]
    simp only [hrs, ok_bind]
    rw [hn']
    simp only [hos, ok_bind]
    rfl

/-- The message begins with the number of groups, which the decoder takes for that of policies. -/
theorem roundTrips_of_secondCopy {gs : List RuleGroup} (h : SecondCopy gs) :
    RoundTrips (utilityMqttWriteUint16 gs.length ++ gs.flatMap groupWire) gs := by
  obtain ⟨hn, es, copy, hlen, hgroups, hcopy⟩ := h
  intro after
  have hread : ∀ rest, luaReadUint16 after (utilityMqttWriteUint16 gs.length ++ rest) = (gs.length, rest) := by
    intro rest
    rw [luaReadUint16_write, Nat.mod_eq_of_lt hn]
  obtain ⟨rs, hrs, hids⟩ := times_entries after hlen (utilityMqttWriteUint16 gs.length ++ copy)
  obtain ⟨out, rest, hout, hsame⟩ := times_copy after hids hcopy
  rw [← hgroups] at hrs
  exact ⟨out.1, decodePolicy_eq_ok.2 ⟨_, _, rs, _, _, _, out, rest, hread _, hrs, hread _, hout, rfl⟩, hsame⟩

/-- Both counts are the number of groups. -/
theorem times_of_roundTrips {gs : List RuleGroup}
    (h : RoundTrips (utilityMqttWriteUint16 gs.length ++ gs.flatMap groupWire) gs) :
    gs.length < 2 ^ 16 ∧ ∀ after, ∃ rs t bs os rest,
      times (decodeRule after) gs.length (gs.flatMap groupWire) = .ok (rs, t) ∧
        luaReadUint16 after t = (gs.length, bs) ∧ times (decodeGroup after rs.1) gs.length bs = .ok (os, rest) ∧
          List.Forall₂ SameRuleGroup gs os.1 := by
  have hcounts : ∀ after, ∃ n rs t bs os rest, n = gs.length % 2 ^ 16 ∧
      times (decodeRule after) n (gs.flatMap groupWire) = .ok (rs, t) ∧
        luaReadUint16 after t = (gs.length, bs) ∧ times (decodeGroup after rs.1) gs.length bs = .ok (os, rest) ∧
          List.Forall₂ SameRuleGroup gs os.1 := by
    intro after
    obtain ⟨out, hout, hsame⟩ := h after
    obtain ⟨n, bs, rs, t, n', bs', os, rest, hn, hrs, hn', hos, rfl⟩ := decodePolicy_eq_ok.1 hout
    rw [luaReadUint16_write] at hn
    obtain ⟨hmod, rfl⟩ := Prod.mk.inj hn
    have hlen : n' = gs.length := os.2.symm.trans hsame.length_eq.symm
    subst hlen
    exact ⟨n, rs, t, bs', os, rest, hmod.symm, hrs, hn', hos, hsame⟩
  have hlt : gs.length < 2 ^ 16 := by
    obtain ⟨_, _, t, _, _, _, -, -, hread, -⟩ := hcounts fun _ => Stream'.const 0
    have hle := readUint16_le (luaMem (fun _ => Stream'.const 0) t) 2
    rw [show utilityMqttReadUint16 _ 2 = gs.length from congrArg Prod.fst hread] at hle
    omega
  refine ⟨hlt, fun after => ?_⟩
  obtain ⟨n, rs, t, bs, os, rest, hn, hrest⟩ := hcounts after
  rw [Nat.mod_eq_of_lt hlt] at hn
  subst hn
  exact ⟨rs, t, bs, os, rest, hrest⟩

theorem secondCopy_of_roundTrips {gs : List RuleGroup} (hne : gs ≠ []) (hp : ∀ g ∈ gs, g.policys ≠ [])
    (h : RoundTrips (utilityMqttWriteUint16 gs.length ++ gs.flatMap groupWire) gs) : SecondCopy gs := by
  obtain ⟨hlt, htimes⟩ := times_of_roundTrips h
  obtain ⟨rs, t, bs, os, rest, hrs, hcount, hos, -⟩ := htimes fun _ => Stream'.const 0
  obtain ⟨hlen, rfl⟩ := Prod.mk.inj hcount
  -- Behind the policies there are the count and at least the length of a uri.
  have ht : 4 ≤ t.length := by
    obtain ⟨g, gs, rfl⟩ := List.exists_cons_of_ne_nil hne
    obtain ⟨l, rest', -, hl, -, -⟩ := times_succ_eq_ok.1 hos
    obtain ⟨_, _, _, huri, -⟩ := decodeGroup_eq_ok _ hl
    have := two_le_of_decodeUtf8 huri
    rw [List.length_drop] at this
    omega
  obtain ⟨es, heslen, hes⟩ := entries_of_times _ hrs (List.length_pos_iff.1 (by omega))
  obtain ⟨n, hn, htn⟩ := exists_writeUint16 (by omega : 2 ≤ t.length)
  have hnlen : n = gs.length := by
    have hread := congrArg Prod.fst (luaReadUint16_write (fun _ => Stream'.const 0) n (t.drop 2))
    rw [← htn, Nat.mod_eq_of_lt hn] at hread
    exact hread.symm.trans hlen
  subst hnlen
  refine ⟨hlt, es, t.drop 2, heslen, by rw [← htn]; exact hes, ?_⟩
  refine copyAt_of_times ?_ hp fun after => ?_
  · intro x hx
    obtain ⟨e, -, rfl⟩ := List.mem_map.1 hx
    exact e.id_lt
  · obtain ⟨rs', t', bs', os', rest', hrs', hbs', hos', hsame'⟩ := htimes after
    obtain ⟨-, rfl⟩ := Prod.mk.inj hbs'
    obtain ⟨rs'', hrs'', hids⟩ := times_entries after heslen t
    rw [← hes, hrs'] at hrs''
    obtain ⟨rfl, rfl⟩ := Prod.mk.inj (Except.ok.inj hrs'')
    exact ⟨rs'.1, os', rest', hids, hos', hsame'⟩

/-- An accepted list comes back if and only if its message has it twice. -/
theorem policy_codec_iff {gs : List RuleGroup} {m : Bytes} (hm : encodePolicy gs = .ok m) :
    RoundTrips m gs ↔ SecondCopy gs := by
  obtain ⟨hne, hp, rfl⟩ := encodePolicy_eq_ok hm
  exact ⟨secondCopy_of_roundTrips hne hp, roundTrips_of_secondCopy⟩

/-- A group of which the numbers are a copy: the uri ends in the head of a policy, the rows of which go up to them. -/
def twiceGroup : RuleGroup :=
  ⟨ascii ['/', 'a'] ++ utf8Bytes aidset ++ utilityMqttWriteUint16 0 ++ utilityMqttWriteUint16 3, 0, ascii ['b'],
    some (ascii ['t', 'x']), [⟨929633, ipset,
      .set [65550, 794886150, 1634296947, 1702100992, 196608, 90624, 41187328, 16780847, 1627389952]⟩]⟩

theorem twice_roundTrips : encodePolicy [twiceGroup] = .ok (utilityMqttWriteUint16 1 ++ groupWire twiceGroup) ∧
    RoundTrips (utilityMqttWriteUint16 1 ++ groupWire twiceGroup) [twiceGroup] := by
  have hm : encodePolicy [twiceGroup] = .ok (utilityMqttWriteUint16 1 ++ groupWire twiceGroup) := by decide +kernel
  refine ⟨hm, (policy_codec_iff hm).2 ⟨by decide, [⟨929633, aidset, 0, 3, ((groupWire twiceGroup).drop 16).take 24,
    by decide, by decide, by decide, by decide, by decide +kernel⟩], (groupWire twiceGroup).drop 42, rfl,
    by decide +kernel, ascii ['t', 'x'], 1, (groupWire twiceGroup).drop 69, rfl, by decide, by decide, by decide,
    by decide +kernel, ?_, trivial⟩⟩
  exact .known (x := 929633) (by decide) (by decide +kernel) (by decide) (.nil _)

/-! ## Ordinary lists -/

/-- The third byte of the first uri is the high byte of the length of a type. -/
theorem thirdByte_of_secondCopy {g : RuleGroup} {gs : List RuleGroup} (h : SecondCopy (g :: gs)) {b : UInt8}
    (hb : g.uri[2]? = some b) : b = 0 := by
  have hshort : ∀ t ∈ luaRangeTypes ++ luaSetTypes ++ luaNumTypes, (utf8Bytes t)[0]? = some 0 := by decide
  obtain ⟨-, es, copy, hlen, hgroups, -⟩ := h
  obtain ⟨e, es, rfl⟩ := List.exists_cons_of_length_eq_add_one hlen
  have huri : ((g :: gs).flatMap groupWire)[4]? = some b := by
    have hlt : 2 < g.uri.length := (List.getElem?_eq_some_iff.1 hb).1
    rw [List.flatMap_cons, groupWire, utf8Bytes, List.append_assoc, List.append_assoc,
      List.getElem?_append_right (by simp), List.getElem?_append_left (by simpa using hlt)]
    exact hb
  have htype : ((e :: es).flatMap RuleEntry.bytes ++ (utilityMqttWriteUint16 (g :: gs).length ++ copy))[4]? =
      some 0 := by
    have hlt : 0 < (utf8Bytes e.type).length := by
      simp only [utf8Bytes, List.length_append, length_writeUint16]
      omega
    rw [List.flatMap_cons, RuleEntry.bytes, List.append_assoc, List.append_assoc,
      List.getElem?_append_right (by simp), List.append_assoc, List.getElem?_append_left (by simpa using hlt)]
    exact hshort _ e.type_mem
  rw [hgroups, htype] at huri
  exact (Option.some.inj huri).symm

/-- No list comes back of which the first uri has a third character. -/
theorem not_roundTrips {g : RuleGroup} {gs : List RuleGroup} {m : Bytes} (hm : encodePolicy (g :: gs) = .ok m)
    {b : UInt8} (hb : g.uri[2]? = some b) (h0 : b ≠ 0) : ¬ RoundTrips m (g :: gs) := by
  obtain ⟨hne, hp, rfl⟩ := encodePolicy_eq_ok hm
  exact fun h => h0 (thirdByte_of_secondCopy (secondCopy_of_roundTrips hne hp h) hb)

/-- A group of the root. -/
def rootGroup : RuleGroup :=
  ⟨ascii ['/'], 0, ascii ['b', 'e', 't', 'a'], some [], [⟨1, iprange, .ranges [(1111, 2130706433)]⟩]⟩

/-- Its uri and action are an id, and an empty type follows. -/
theorem root_unread : ∃ m, encodePolicy [rootGroup] = .ok m ∧ ∀ after, decodePolicy after m = .error .returnNil :=
  ⟨_, rfl, fun _ => rfl⟩

end NgxPlus.Diversion
