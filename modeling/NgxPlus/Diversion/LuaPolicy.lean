import NgxPlus.Diversion.GetPolicy

/-!
# The two policy decoders: `decode_policy` (`common.lua:191-286`) and `diversion_decode_policy`

| here | there |
| --- | --- |
| `decodeRule`   | the first loop (`:197-239`), three branches by type |
| `decodeGroup`  | the second loop (`:245-279`); an id that no policy has is dropped |
| `decodePolicy` | the function; `.error .returnNil` is `return nil` |

The bitset id is read and not used; the numbers of a rule are logged and dropped.

`decoders_agree`: on a `Plain` message both accept with the same groups, or both refuse.
`Plain` is the grammar of the messages on which the decoders take every step alike. What it
leaves out reaches one of their differences: 0 as an error value on the C side only (number of
policies or groups, id, range end, action, number of references), the length 65535, a type
that is a proper beginning of a name, `oidset`, `bitset` and a set with numbers, an id that
no policy has, and a read behind the end of the message.
-/

namespace NgxPlus.Diversion

open ByteMem Decode

/-! ## The Lua decoder -/

/-- `rule.data`. -/
inductive LuaData
  | ranges (rs : List (Int × Int))
  | set (vals : List Int)
deriving DecidableEq, Repr

structure LuaRule where
  id : Nat
  type : Bytes
  data : LuaData
deriving DecidableEq, Repr

structure LuaGroup where
  uri : Bytes
  action : Nat
  backend : Bytes
  text : Bytes
  policys : List Nat
deriving DecidableEq, Repr

/-- `readUint64` is `utility_mqtt_read_int64`; `tonumber` rounds it to a double. -/
def luaReadUint64 (after : Behind) (bs : Bytes) : Int × Bytes :=
  ((BitVec.ofNat 64 (utilityMqttReadUint64 (luaMem after bs))).toInt, bs.drop 8)

def luaReadRange (after : Behind) (bs : Bytes) : (Int × Int) × Bytes :=
  let (start, bs) := luaReadUint64 after bs
  let (end_, bs) := luaReadUint64 after bs
  ((start, end_), bs)

/-- `for i=1, n, 1` over reads that cannot fail. -/
def readMany {α : Type} (read : Bytes → α × Bytes) : Nat → Bytes → List α × Bytes
  | 0, bs => ([], bs)
  | n + 1, bs =>
    let (x, bs) := read bs
    let (xs, bs) := readMany read n bs
    (x :: xs, bs)

def luaRangeTypes : List Bytes := [iprange, aidrange, cidrange]
def luaSetTypes : List Bytes := [aidset, cidset]
def luaNumTypes : List Bytes := [ipset, oidset, aidsuffix, cidsuffix]

def decodeRule (after : Behind) (bs : Bytes) : Except LuaError (LuaRule × Bytes) := do
  let (id, bs) := luaReadUint32 after bs
  let (type, bs) ← decodeUtf8 bs
  let (_bitset, bs) := luaReadUint16 after bs
  let (dlen, bs) := luaReadUint16 after bs
  if type ∈ luaRangeTypes then
    if dlen ≤ 0 then .error .returnNil
    else
      let (data, bs) := readMany (luaReadRange after) dlen bs
      .ok (⟨id, type, .ranges data⟩, bs)
  else if type ∈ luaSetTypes then
    let (data, bs) := readMany (luaReadUint64 after) dlen bs
    .ok (⟨id, type, .set data⟩, bs)
  else if type ∈ luaNumTypes then
    if dlen ≤ 0 then .error .returnNil
    else
      let (data, bs) := readMany (luaReadUint32 after) dlen bs
      .ok (⟨id, type, .set (data.map Int.ofNat)⟩, bs)
  else .error .returnNil

def decodeGroup (after : Behind) (policys : List LuaRule) (bs : Bytes) :
    Except LuaError (LuaGroup × Bytes) := do
  let (uri, bs) ← decodeUtf8 bs
  let (action, bs) := luaReadUint16 after bs
  let (backend, bs) ← decodeUtf8 bs
  let (text, bs) ← decodeUtf8 bs
  let (plen, bs) := luaReadUint16 after bs
  let (pids, bs) := readMany (luaReadUint32 after) plen bs
  return (⟨uri, action, backend, text, pids.filter fun pid => policys.any fun p => p.id == pid⟩, bs)

def decodePolicy (after : Behind) (rulebuf : Bytes) : Except LuaError (List LuaGroup) := do
  let (policyslen, bs) := luaReadUint16 after rulebuf
  let (policys, bs) ← times (decodeRule after) policyslen bs
  let (rulelen, bs) := luaReadUint16 after bs
  let (divRules, _) ← times (decodeGroup after policys.1) rulelen bs
  return divRules.1

/-! ## Agreement -/

/-- The C group has the uri, action, backend, text and policy ids of the Lua group. -/
def SameGroup (policys : List DiversionPolicy) (l : LuaGroup) (h : DiversionPolicyGroup) : Prop :=
  StoredGroup policys ⟨l.uri, l.action, l.backend, some l.text, l.policys⟩ h

/-- Both accept or none, and then the same groups. -/
def DecodersAgree (rodata : Rodata) (s : Shm) (m : Bytes) (after : Mem) (behind : Behind) : Prop :=
  ((∃ gs, decodePolicy behind m = .ok gs) ↔
    (diversionDecodePolicy rodata s (.full m after) s.version).1 = .ok) ∧
  ∀ gs s', decodePolicy behind m = .ok gs →
    diversionDecodePolicy rodata s (.full m after) s.version = (.ok, s') →
    List.Forall₂ (SameGroup s'.policys) gs s'.policyGroup

/-! ## Plain messages -/

/-- An entry both take. -/
structure PlainPolicy (hasVector : Bool) (p : ServerPolicy) : Prop where
  good : GoodPolicy hasVector p
  type : p.type ≠ oidset
  rows : p.BitBacked → p.vals ≠ []

/-- The message ends before a string does. -/
def Cut (bs : Bytes) : Prop :=
  bs.length < 2 ∨ ∃ len body, len ≤ 65535 ∧ body.length < len ∧ bs = utilityMqttWriteUint16 len ++ body

/-- A type that no name of the table begins with, and that no name and its terminator begin. -/
def Foreign (type : Bytes) : Prop :=
  ∀ e ∈ ngxHttpDiversionConfPtypes, ¬ type <+: e.name ∧ ¬ e.name ++ [0] <+: type

/-- The types of which both refuse an empty list. -/
def NeedsRows (type : Bytes) (bitset : Nat) : Prop :=
  type ∈ luaRangeTypes ∨ type ∈ [aidsuffix, cidsuffix] ∨ type = ipset ∧ bitset % 2 ^ 8 ≠ 1

/-- What both refuse where an entry should be. -/
inductive RefusedPolicy : Bytes → Prop
  | noType (id : Nat) {rest : Bytes} (h : rest.length < 2) : RefusedPolicy (utilityMqttWriteUint32 id ++ rest)
  /-- The type is too long for the C reader or for the message. -/
  | long (id : Nat) {len : Nat} {body : Bytes} (hle : len ≤ 65535) (hlen : len = 65535 ∨ body.length < len)
      (htype : body.take len ∉ luaRangeTypes ++ luaSetTypes ++ luaNumTypes) :
    RefusedPolicy (utilityMqttWriteUint32 id ++ (utilityMqttWriteUint16 len ++ body))
  | unknown (id : Nat) {type rest : Bytes} (hle : type.length < 65535) (htype : Foreign type) :
    RefusedPolicy (utilityMqttWriteUint32 id ++ (utf8Bytes type ++ rest))
  | empty (id : Nat) {type : Bytes} {bitset : Nat} {rest : Bytes} (htype : NeedsRows type bitset) :
    RefusedPolicy (utilityMqttWriteUint32 id ++ (utf8Bytes type ++ (utilityMqttWriteUint16 bitset ++
      (utilityMqttWriteUint16 0 ++ rest))))

/-- What both refuse where a group should be: the message ends in front of `text` or earlier. -/
inductive RefusedGroup : Bytes → Prop
  | uri {rest : Bytes} (h : Cut rest) : RefusedGroup rest
  | backend {uri : Bytes} {action : Nat} {rest : Bytes} (hu : uri.length ≤ 65535) (h : Cut rest) :
    RefusedGroup (utf8Bytes uri ++ (utilityMqttWriteUint16 action ++ rest))
  | text {uri : Bytes} {action : Nat} {backend rest : Bytes} (hu : uri.length ≤ 65535)
      (hb : backend.length ≤ 65535) (h : rest.length < 2) :
    RefusedGroup (utf8Bytes uri ++ (utilityMqttWriteUint16 action ++ (utf8Bytes backend ++ rest)))

/-- A message on which the decoders take every step alike. -/
inductive Plain (hasVector : Bool) : Bytes → Prop
  | accepted {ps : List ServerPolicy} {gs : List ServerGroup} {rest : Bytes} (hp : ps ≠ [] ∧ ps.length ≤ 65535)
      (hps : ∀ p ∈ ps, PlainPolicy hasVector p) (hg : gs ≠ [] ∧ gs.length ≤ 65535)
      (hgs : ∀ g ∈ gs, GoodGroup (ps.map ServerPolicy.id) g) :
    Plain hasVector (utilityMqttWriteUint16 ps.length ++ (ps.flatMap policyBytes ++
      (utilityMqttWriteUint16 gs.length ++ (gs.flatMap groupBytes ++ rest))))
  | refusedPolicy {ps : List ServerPolicy} {n : Nat} {rest : Bytes} (hn : ps.length < n ∧ n ≤ 65535)
      (hps : ∀ p ∈ ps, PlainPolicy hasVector p) (hrest : RefusedPolicy rest) :
    Plain hasVector (utilityMqttWriteUint16 n ++ (ps.flatMap policyBytes ++ rest))
  | refusedGroup {ps : List ServerPolicy} {gs : List ServerGroup} {k : Nat} {rest : Bytes}
      (hp : ps ≠ [] ∧ ps.length ≤ 65535) (hps : ∀ p ∈ ps, PlainPolicy hasVector p)
      (hk : gs.length < k ∧ k ≤ 65535) (hgs : ∀ g ∈ gs, GoodGroup (ps.map ServerPolicy.id) g)
      (hrest : RefusedGroup rest) :
    Plain hasVector (utilityMqttWriteUint16 ps.length ++ (ps.flatMap policyBytes ++
      (utilityMqttWriteUint16 k ++ (gs.flatMap groupBytes ++ rest))))

/-! ## The Lua decoder on them -/

section Lua

variable (after : Behind)

theorem snd_readMany {α : Type} {read : Bytes → α × Bytes} {w : Nat} (h : ∀ bs, (read bs).2 = bs.drop w)
    (n : Nat) (bs : Bytes) : (readMany read n bs).2 = bs.drop (w * n) := by
  induction n generalizing bs with
  | zero => rfl
  | succ n ih =>
    show (readMany read n (read bs).2).2 = _
    rw [ih, h, List.drop_drop, Nat.mul_succ, Nat.add_comm]

/-- Behind a number list, whatever was read of it. -/
theorem readMany_append {α : Type} {read : Bytes → α × Bytes} {w : Nat}
    (h : ∀ bs, (read bs).2 = bs.drop w) {n : Nat} {b : Bytes} (hb : b.length = w * n) (rest : Bytes) :
    ∃ xs, readMany read n (b ++ rest) = (xs, rest) := by
  refine ⟨(readMany read n (b ++ rest)).1, Prod.ext rfl ?_⟩
  rw [snd_readMany h]
  exact List.drop_left' hb

theorem snd_luaReadRange (bs : Bytes) : (luaReadRange after bs).2 = bs.drop 16 := by
  show (bs.drop 8).drop 8 = _
  rw [List.drop_drop]

theorem length_flatMap_rangeBytes (rs : List (Nat × Nat)) :
    (rs.flatMap rangeBytes).length = 16 * rs.length := by
  induction rs with
  | nil => rfl
  | cons r rs ih =>
    rw [List.flatMap_cons, List.length_append, ih, rangeBytes, List.length_append, length_writeUint64,
      length_writeUint64, List.length_cons]
    omega

theorem decodeUtf8_write_len {len : Nat} (h : len ≤ 65535) (body : Bytes) :
    decodeUtf8 (utilityMqttWriteUint16 len ++ body) = .ok (body.take len, body.drop len) := by
  have hlen : len / 256 % 256 * 256 + len % 256 = len := by omega
  rw [writeUint16_eq_toBe]
  simp [toBe, decodeUtf8, hlen]

theorem decodeUtf8_short {bs : Bytes} (h : bs.length < 2) : decodeUtf8 bs = .error .arithNil := by
  match bs with
  | [] => rfl
  | [_] => rfl
  | _ :: _ :: bs =>
    simp only [List.length_cons] at h
    omega

/-- A cut string raises at once or leaves nothing. -/
theorem decodeUtf8_cut {bs : Bytes} (h : Cut bs) :
    (∃ e, decodeUtf8 bs = .error e) ∨ ∃ b, decodeUtf8 bs = .ok (b, []) := by
  rcases h with h | ⟨len, body, hle, hlt, rfl⟩
  · exact Or.inl ⟨_, decodeUtf8_short h⟩
  · right
    rw [decodeUtf8_write_len hle]
    exact ⟨_, congrArg (fun r => Except.ok (_, r)) (List.drop_eq_nil_of_le (le_of_lt hlt))⟩

/-- Behind the header, only the type and the length decide. -/
theorem decodeRule_head {id bitset dlen : Nat} {type : Bytes}
    (ht : type.length ≤ 65535) (hd : dlen ≤ 65535) (rest : Bytes) :
    decodeRule after (utilityMqttWriteUint32 id ++ (utf8Bytes type ++ (utilityMqttWriteUint16 bitset ++
      (utilityMqttWriteUint16 dlen ++ rest)))) =
      if type ∈ luaRangeTypes then
        if dlen = 0 then .error .returnNil
        else .ok (⟨id % 2 ^ 32, type, .ranges (readMany (luaReadRange after) dlen rest).1⟩,
          (readMany (luaReadRange after) dlen rest).2)
      else if type ∈ luaSetTypes then
        .ok (⟨id % 2 ^ 32, type, .set (readMany (luaReadUint64 after) dlen rest).1⟩,
          (readMany (luaReadUint64 after) dlen rest).2)
      else if type ∈ luaNumTypes then
        if dlen = 0 then .error .returnNil
        else .ok (⟨id % 2 ^ 32, type, .set ((readMany (luaReadUint32 after) dlen rest).1.map Int.ofNat)⟩,
          (readMany (luaReadUint32 after) dlen rest).2)
      else .error .returnNil := by
  rw [decodeRule, luaReadUint32_write]
  simp only
  rw [decodeUtf8_utf8 ht, ok_bind]
  simp only [luaReadUint16_write, Nat.mod_eq_of_lt (show dlen < 2 ^ 16 by omega), Nat.le_zero]

theorem mem_luaTypes_length {t : Bytes} (h : t ∈ luaRangeTypes ++ luaSetTypes ++ luaNumTypes) :
    t.length ≤ 65535 := by
  have hall : ∀ t ∈ luaRangeTypes ++ luaSetTypes ++ luaNumTypes, t.length ≤ 65535 := by decide
  exact hall t h

/-- The branch a plain policy takes in Lua is the one it takes on the server. -/
theorem plainPolicy_cases {hasVector : Bool} {p : ServerPolicy} (h : PlainPolicy hasVector p) :
    (p.type ∈ luaSetTypes ∧ rowCount p = 0 ∧ rowBytes p = []) ∨
    (p.type ∈ luaRangeTypes ∧ rowCount p = p.ranges.length ∧ rowBytes p = p.ranges.flatMap rangeBytes ∧
      p.ranges ≠ []) ∨
    (p.type ∈ [ipset, aidsuffix, cidsuffix] ∧ rowCount p = p.vals.length ∧
      rowBytes p = p.vals.flatMap utilityMqttWriteUint32 ∧ p.vals ≠ []) := by
  have hf := h.good.2
  unfold FaithfulPolicy at hf
  by_cases hset : p.type ∈ setTypes
  · left
    have hno := h.type
    refine ⟨?_, rows_set hset⟩
    simp only [setTypes, luaSetTypes, List.mem_cons, List.not_mem_nil, or_false] at hset ⊢
    tauto
  rw [if_neg hset] at hf
  right
  by_cases hrange : p.type ∈ rangeTypes
  · left
    rw [if_pos hrange] at hf
    obtain ⟨ho, hne, -⟩ := hf
    refine ⟨?_, (rows_range hrange).1, (rows_range hrange).2, hne⟩
    simp only [rangeTypes, luaRangeTypes, List.mem_cons, List.not_mem_nil, or_false] at hrange ⊢
    tauto
  · right
    rw [if_neg hrange] at hf
    obtain ⟨hcount, hbytes⟩ := rows_nums hset hrange
    by_cases hb : p.BitBacked
    · refine ⟨?_, hcount, hbytes, h.rows hb⟩
      rw [hb.1]
      exact List.mem_cons_self
    · rw [if_neg hb] at hf
      exact ⟨hf.1, hcount, hbytes, hf.2⟩

theorem decodeRule_plain {hasVector : Bool} {p : ServerPolicy} (h : PlainPolicy hasVector p) (rest : Bytes) :
    ∃ r : LuaRule, r.id = p.id ∧ decodeRule after (policyBytes p ++ rest) = .ok (r, rest) := by
  have hfits := h.good.1
  have hcount := rowCount_le hfits
  have hid : p.id % 2 ^ 32 = p.id := Nat.mod_eq_of_lt hfits.id.2
  rw [policyBytes]
  simp only [List.append_assoc]
  rcases plainPolicy_cases h with ⟨ht, hn, hrows⟩ | ⟨ht, hn, hrows, hne⟩ | ⟨ht, hn, hrows, hne⟩
  · have hlen := mem_luaTypes_length (List.mem_append_left _ (List.mem_append_right _ ht))
    have hno : ∀ t ∈ luaSetTypes, t ∉ luaRangeTypes := by decide
    refine ⟨⟨p.id, p.type, .set []⟩, rfl, ?_⟩
    rw [decodeRule_head after hlen hcount, hid, if_neg (hno _ ht), if_pos ht, hn, hrows]
    rfl
  · have hlen := mem_luaTypes_length (List.mem_append_left _ (List.mem_append_left _ ht))
    have hpos : p.ranges.length ≠ 0 := fun h0 => hne (List.length_eq_zero_iff.1 h0)
    obtain ⟨xs, hxs⟩ := readMany_append (snd_luaReadRange after) (length_flatMap_rangeBytes p.ranges) rest
    refine ⟨⟨p.id, p.type, .ranges xs⟩, rfl, ?_⟩
    rw [decodeRule_head after hlen hcount, hid, if_pos ht, hn, if_neg hpos, hrows, hxs]
  · have hmem : p.type ∈ luaNumTypes := by
      have hall : ∀ t ∈ [ipset, aidsuffix, cidsuffix], t ∈ luaNumTypes := by decide
      exact hall _ ht
    have hlen := mem_luaTypes_length (List.mem_append_right _ hmem)
    have hno : ∀ t ∈ luaNumTypes, t ∉ luaRangeTypes ∧ t ∉ luaSetTypes := by decide
    have hpos : p.vals.length ≠ 0 := fun h0 => hne (List.length_eq_zero_iff.1 h0)
    obtain ⟨xs, hxs⟩ := readMany_append (fun _ => rfl : ∀ bs, (luaReadUint32 after bs).2 = bs.drop 4)
      (length_flatMap_write p.vals) rest
    refine ⟨⟨p.id, p.type, .set (xs.map Int.ofNat)⟩, rfl, ?_⟩
    rw [decodeRule_head after hlen hcount, hid, if_neg (hno _ hmem).1, if_neg (hno _ hmem).2,
      if_pos hmem, hn, if_neg hpos, hrows, hxs]

theorem mem_table_of_luaTypes {t : Bytes} (h : t ∈ luaRangeTypes ++ luaSetTypes ++ luaNumTypes) :
    ∃ e ∈ ngxHttpDiversionConfPtypes, e.name = t := by
  have hall : ∀ t ∈ luaRangeTypes ++ luaSetTypes ++ luaNumTypes,
      ∃ e ∈ ngxHttpDiversionConfPtypes, e.name = t := by decide
  exact hall t h

/-- A type of no branch. -/
theorem decodeRule_unknown {bs body rest : Bytes} {id : Nat} {type : Bytes}
    (hbs : luaReadUint32 after bs = (id, body)) (ht : decodeUtf8 body = .ok (type, rest))
    (hno : type ∉ luaRangeTypes ++ luaSetTypes ++ luaNumTypes) :
    decodeRule after bs = .error .returnNil := by
  simp only [List.mem_append, not_or] at hno
  rw [decodeRule, hbs]
  simp only
  rw [ht, ok_bind]
  simp only [hno.1.1, hno.1.2, hno.2, if_false]

theorem NeedsRows.luaType {type : Bytes} {bitset : Nat} (h : NeedsRows type bitset) :
    type ∈ luaRangeTypes ++ luaSetTypes ++ luaNumTypes ∧ type ∉ luaSetTypes := by
  have hrange : ∀ t ∈ luaRangeTypes, t ∈ luaRangeTypes ++ luaSetTypes ++ luaNumTypes ∧ t ∉ luaSetTypes := by
    decide
  have hnum : ∀ t ∈ [ipset, aidsuffix, cidsuffix],
      t ∈ luaRangeTypes ++ luaSetTypes ++ luaNumTypes ∧ t ∉ luaSetTypes := by decide
  rcases h with h | h | ⟨rfl, -⟩
  · exact hrange _ h
  · exact hnum _ (List.mem_cons_of_mem _ h)
  · exact hnum _ List.mem_cons_self

theorem decodeRule_refused {bs : Bytes} (h : RefusedPolicy bs) : ∃ e, decodeRule after bs = .error e := by
  cases h with
  | noType id h =>
    refine ⟨.arithNil, ?_⟩
    rw [decodeRule, luaReadUint32_write]
    simp only
    rw [decodeUtf8_short h]
    rfl
  | long id hle hlen htype =>
    exact ⟨_, decodeRule_unknown after (luaReadUint32_write _ _ _) (decodeUtf8_write_len hle _) htype⟩
  | unknown id hle htype =>
    refine ⟨_, decodeRule_unknown after (luaReadUint32_write _ _ _) (decodeUtf8_utf8 (le_of_lt hle) _) ?_⟩
    intro hmem
    obtain ⟨e, he, hname⟩ := mem_table_of_luaTypes hmem
    exact (htype e he).1 (by rw [hname])
  | empty id htype =>
    obtain ⟨hmem, hno⟩ := htype.luaType
    refine ⟨.returnNil, ?_⟩
    rw [decodeRule_head after (mem_luaTypes_length hmem) (Nat.zero_le _)]
    simp only [hno, if_false, if_true, ite_self]

theorem readMany_pids {pids : List Nat} (h : ∀ pid ∈ pids, pid < 2 ^ 32) (rest : Bytes) :
    readMany (luaReadUint32 after) pids.length (pids.flatMap utilityMqttWriteUint32 ++ rest) =
      (pids, rest) := by
  induction pids with
  | nil => rfl
  | cons pid pids ih =>
    rw [List.length_cons, readMany, List.flatMap_cons, List.append_assoc, luaReadUint32_write,
      Nat.mod_eq_of_lt (h pid List.mem_cons_self)]
    simp only
    rw [ih fun q hq => h q (List.mem_cons_of_mem _ hq)]

/-- The Lua table of a group. -/
def luaGroup (g : ServerGroup) : LuaGroup := ⟨g.uri, g.action, g.backend, g.text.getD [], g.pids⟩

theorem decodeGroup_good {rules : List LuaRule} {g : ServerGroup}
    (h : GoodGroup (rules.map LuaRule.id) g) (rest : Bytes) :
    decodeGroup after rules (groupBytes g ++ rest) = .ok (luaGroup g, rest) := by
  obtain ⟨hg, hf⟩ := h
  have hact : g.action % 2 ^ 16 = g.action := Nat.mod_eq_of_lt (by have := hg.action; omega)
  have hlen : g.pids.length % 2 ^ 16 = g.pids.length := Nat.mod_eq_of_lt (by have := hf.pids.1; omega)
  have hknown : (g.pids.filter fun pid => rules.any fun p => p.id == pid) = g.pids := by
    rw [List.filter_eq_self]
    intro pid hp
    obtain ⟨r, hr, hid⟩ := List.mem_map.1 (hf.pids.2 pid hp)
    exact List.any_eq_true.2 ⟨r, hr, by simp [hid]⟩
  rw [decodeGroup, groupBytes]
  simp only [List.append_assoc]
  rw [decodeUtf8_utf8 hg.strings.1, ok_bind]
  simp only [luaReadUint16_write, hact]
  rw [decodeUtf8_utf8 hg.strings.2.1, ok_bind]
  simp only
  rw [decodeUtf8_utf8 hg.strings.2.2, ok_bind]
  simp only [luaReadUint16_write, hlen, readMany_pids after hg.pids.2, hknown]
  rfl

theorem decodeGroup_refused (rules : List LuaRule) {bs : Bytes} (h : RefusedGroup bs) :
    ∃ e, decodeGroup after rules bs = .error e := by
  cases h with
  | uri h =>
    rw [decodeGroup]
    rcases decodeUtf8_cut h with ⟨e, he⟩ | ⟨b, hb⟩
    · exact ⟨e, by rw [he]; rfl⟩
    · exact ⟨.arithNil, by rw [hb]; rfl⟩
  | backend hu h =>
    rw [decodeGroup, decodeUtf8_utf8 hu, ok_bind]
    simp only [luaReadUint16_write]
    rcases decodeUtf8_cut h with ⟨e, he⟩ | ⟨b, hb⟩
    · exact ⟨e, by rw [he]; rfl⟩
    · exact ⟨.arithNil, by rw [hb]; rfl⟩
  | text hu hb h =>
    rw [decodeGroup, decodeUtf8_utf8 hu, ok_bind]
    simp only [luaReadUint16_write]
    rw [decodeUtf8_utf8 hb, ok_bind]
    simp only
    exact ⟨.arithNil, by rw [decodeUtf8_short h]; rfl⟩

end Lua

/-! ## The C decoder on them -/

section C

variable (rodata : Rodata) (m : Mem)

/-- No memory behind the names makes a foreign type known. -/
theorem findPtype_foreign {type : Bytes} (h : Foreign type) : findPtype rodata type = none := by
  rw [findPtype, List.find?_eq_none]
  intro e he htake
  obtain ⟨hno, hno'⟩ := h e (List.mem_reverse.1 he)
  have heq : (ptypeName rodata e).take type.length = type := by simpa using htake
  by_cases hlen : type.length ≤ e.name.length
  · rw [ptypeName, Stream'.take_append_of_le_length _ _ _ hlen] at heq
    exact hno (heq ▸ List.take_prefix _ _)
  · have hsplit : ptypeName rodata e = (e.name ++ [0]) ++ₛ rodata e.value := by
      rw [ptypeName, Stream'.append_append_stream]
      rfl
    obtain ⟨k, hk⟩ := Nat.exists_eq_add_of_lt (not_le.1 hlen)
    have hadd : type.length = (e.name ++ [0]).length + k := by
      rw [List.length_append, List.length_singleton, hk]
      omega
    rw [hsplit, hadd, Stream'.take_add, take_append_of_eq _ _ rfl] at heq
    exact hno' ⟨_, heq⟩

theorem readString_long {len : Nat} {body : Bytes} (hle : len ≤ 65535)
    (h : len = 65535 ∨ body.length < len) :
    (Dec.full (utilityMqttWriteUint16 len ++ body) m).readString = .error .error := by
  by_cases hmax : len = 65535
  · exact Dec.readString_max (by rw [hmax]; decide) body m _
  · have hlt : body.length < len := h.resolve_left hmax
    have hlen := congrArg Prod.fst (Dec.readUint16_write len body m (Stream'.const true))
    have hfield : utilityMqttReadUint16 (Dec.full (utilityMqttWriteUint16 len ++ body) m).p
        (Dec.full (utilityMqttWriteUint16 len ++ body) m).plen = len := by
      refine hlen.trans ?_
      exact Nat.mod_eq_of_lt (by omega)
    have hleft : sizeSub (Dec.full (utilityMqttWriteUint16 len ++ body) m).plen 2 = body.length := by
      show sizeSub (utilityMqttWriteUint16 len ++ body).length 2 = _
      rw [List.length_append, length_writeUint16, sizeSub_add_left]
    rw [Dec.readString, utilityMqttReadString]
    simp only [hfield, hmax, if_false, hleft, hlt, if_true]

theorem readString_short {bs : Bytes} (h : bs.length < 2) :
    (Dec.full bs m).readString = .error .error := by
  have hmax : utilityMqttReadUint16 (Dec.full bs m).p (Dec.full bs m).plen = 65535 := if_pos h
  rw [Dec.readString, NgxPlus.readString_max _ hmax]

theorem readString_cut {bs : Bytes} (h : Cut bs) : (Dec.full bs m).readString = .error .error := by
  rcases h with h | ⟨len, body, hle, hlt, rfl⟩
  · exact readString_short m h
  · exact readString_long m hle (Or.inr hlt)

/-- A header that was read: behind the id stands a string, the type. -/
theorem readPolicyHead_type {id : Nat} {body : Bytes} {h : PolicyHead} {d : Dec}
    (hh : readPolicyHead (.full (utilityMqttWriteUint32 id ++ body) m) = .ok (h, d)) :
    ∃ d1, (Dec.full body m).readString = .ok (h.type, d1) ∧ h.bitsetId = d1.readUint16.1 % 2 ^ 8 ∧
      h.datalen = d1.readUint16.2.readUint16.1 := by
  rw [readPolicyHead, Dec.readUint32_write] at hh
  simp only at hh
  split at hh
  · simp at hh
  · obtain ⟨⟨type, d1⟩, ht, hh⟩ := bind_eq_ok.1 hh
    obtain ⟨rfl, -⟩ := Prod.mk.inj (Except.ok.inj hh)
    exact ⟨d1, ht, rfl, rfl⟩

/-- The types that need rows, without them. -/
theorem readPolicyData_needsRows {h : PolicyHead} {bitset : Nat} (ht : NeedsRows h.type bitset)
    (hb : h.bitsetId = bitset % 2 ^ 8) (h0 : h.datalen = 0) {e : NgxDivConfEnum}
    (he : findPtype rodata h.type = some e) (s : PolicyDec) :
    readPolicyData e.stype h s = .error .error := by
  rcases ht with ht | ht | ⟨ht, hne⟩
  · have hall : ∀ t ∈ luaRangeTypes, t ∈ rangeTypes ∧ t ≠ oidrange := by decide
    obtain ⟨e', he', -, hst⟩ := findPtype_range rodata (hall _ ht).1 (hall _ ht).2
    obtain rfl := Option.some.inj (he.symm.trans he')
    rw [hst]
    exact if_pos h0
  · obtain ⟨e', he', -, hst⟩ := findPtype_suffix rodata ht
    obtain rfl := Option.some.inj (he.symm.trans he')
    rw [hst]
    exact readNums_zero h0 s
  · obtain ⟨e', he', -, hst⟩ := findPtype_ipset rodata
    rw [← ht] at he'
    obtain rfl := Option.some.inj (he.symm.trans he')
    have h1 : h.bitsetId ≠ 1 := by rwa [hb]
    rw [hst]
    exact (if_neg h1).trans (readNums_zero h0 s)

theorem readPolicy_refused {bs : Bytes} (h : RefusedPolicy bs) (bv : Option BitVector) :
    ∃ e, readPolicy rodata (.full bs m, bv) = .error e := by
  cases hr : readPolicy rodata (.full bs m, bv) with
  | error e => exact ⟨e, rfl⟩
  | ok r =>
    exfalso
    obtain ⟨⟨hd, d⟩, hh, hr⟩ := bind_eq_ok.1 hr
    cases h with
    | noType id h =>
      obtain ⟨d1, ht, -⟩ := readPolicyHead_type m hh
      rw [readString_short m h] at ht
      simp at ht
    | long id hle hlen htype =>
      obtain ⟨d1, ht, -⟩ := readPolicyHead_type m hh
      rw [readString_long m hle hlen] at ht
      simp at ht
    | unknown id hle htype =>
      obtain ⟨d1, ht, -⟩ := readPolicyHead_type m hh
      rw [readString_utf8 hle] at ht
      obtain ⟨rfl, -⟩ := Prod.mk.inj (Except.ok.inj ht)
      simp [findPtype_foreign rodata htype] at hr
    | empty id htype =>
      have hlt : ∀ t ∈ luaRangeTypes ++ luaSetTypes ++ luaNumTypes, t.length < 65535 := by decide
      obtain ⟨d1, ht, hb, h0⟩ := readPolicyHead_type m hh
      rw [readString_utf8 (hlt _ htype.luaType.1)] at ht
      obtain ⟨rfl, rfl⟩ := Prod.mk.inj (Except.ok.inj ht)
      rw [Dec.readUint16_write] at hb h0
      rw [Dec.readUint16_write] at h0
      have hb' := hb.trans (Nat.mod_mod_of_dvd _ (by decide))
      cases he : findPtype rodata hd.type with
      | none => simp [he] at hr
      | some e =>
        simp only [he] at hr
        rw [readPolicyData_needsRows rodata htype hb' h0 he] at hr
        simp at hr

theorem readGroup_refused (qs : List DiversionPolicy) {bs : Bytes} (h : RefusedGroup bs) :
    ∃ e, readGroup qs (.full bs m) = .error e := by
  cases hr : readGroup qs (.full bs m) with
  | error e => exact ⟨e, rfl⟩
  | ok r =>
    exfalso
    obtain ⟨⟨uri, d1⟩, hu, hr⟩ := bind_eq_ok.1 hr
    cases h with
    | uri h =>
      rw [readString_cut m h] at hu
      simp at hu
    | backend hlen h =>
      obtain ⟨-, rfl, rfl⟩ := readString_utf8_eq_ok hlen hu
      simp only [Dec.strdup_full, Dec.readUint16_write] at hr
      rw [readString_cut m h] at hr
      split at hr <;> simp at hr
    | text hlen hb h =>
      obtain ⟨-, rfl, rfl⟩ := readString_utf8_eq_ok hlen hu
      simp only [Dec.strdup_full, Dec.readUint16_write] at hr
      split at hr
      · simp at hr
      · obtain ⟨⟨backend, d2⟩, hbk, hr⟩ := bind_eq_ok.1 hr
        obtain ⟨-, rfl, rfl⟩ := readString_utf8_eq_ok hb hbk
        simp only [Dec.strdup_full] at hr
        rw [readString_short m h] at hr
        simp at hr

end C

/-! ## Both -/

section Messages

variable {ps : List ServerPolicy} {hasVector : Bool} (hps : ∀ p ∈ ps, PlainPolicy hasVector p)
include hps

section Lua

variable (behind : Behind)

omit hps in
theorem decodeRule_item (_ : Unit) (p : ServerPolicy) (rest : Bytes) (_ : True)
    (hp : PlainPolicy hasVector p) :
    ∃ r : LuaRule, p.id = r.id ∧ decodeRule behind (policyBytes p ++ rest) = .ok (r, rest) := by
  obtain ⟨r, hid, hr⟩ := decodeRule_plain behind hp rest
  exact ⟨r, hid.symm, hr⟩

theorem decodeRules_plain (rest : Bytes) :
    ∃ rs : {rs : List LuaRule // rs.length = ps.length}, rs.1.map LuaRule.id = ps.map ServerPolicy.id ∧
      times (decodeRule behind) ps.length (ps.flatMap policyBytes ++ rest) = .ok (rs, rest) := by
  obtain ⟨rs, hrs, h⟩ := times_encoded (S := fun (_ : Unit) bs => bs) (N := fun a _ => a)
    (I := fun _ => True) (fun _ _ h => h) (decodeRule_item behind) hps (a := ()) trivial rest rfl
  refine ⟨rs, ?_, h⟩
  have heq : List.Forall₂ Eq (ps.map ServerPolicy.id) (rs.1.map LuaRule.id) := by
    rw [List.forall₂_map_left_iff, List.forall₂_map_right_iff]
    exact hrs
  rw [List.forall₂_eq_eq_eq] at heq
  exact heq.symm

/-- Behind plain policies, the Lua decoder is the loop over the groups. -/
theorem decodePolicy_groups (hn : ps.length ≤ 65535) {k : Nat} (hk : k ≤ 65535) (rest : Bytes) :
    ∃ rules : List LuaRule, rules.map LuaRule.id = ps.map ServerPolicy.id ∧
      decodePolicy behind (utilityMqttWriteUint16 ps.length ++ (ps.flatMap policyBytes ++
        (utilityMqttWriteUint16 k ++ rest))) =
        (times (decodeGroup behind rules) k rest).map fun r => r.1.1 := by
  obtain ⟨rs, hids, hrs⟩ := decodeRules_plain hps behind (utilityMqttWriteUint16 k ++ rest)
  refine ⟨rs.1, hids, ?_⟩
  rw [decodePolicy, luaReadUint16_write, Nat.mod_eq_of_lt (show ps.length < 2 ^ 16 by omega)]
  simp only
  rw [hrs, ok_bind]
  simp only
  rw [luaReadUint16_write, Nat.mod_eq_of_lt (show k < 2 ^ 16 by omega)]
  simp only
  cases times (decodeGroup behind rs.1) k rest <;> rfl

theorem decodePolicy_accepted (hn : ps.length ≤ 65535) {gs : List ServerGroup} (hk : gs.length ≤ 65535)
    (hgs : ∀ g ∈ gs, GoodGroup (ps.map ServerPolicy.id) g) (rest : Bytes) :
    decodePolicy behind (utilityMqttWriteUint16 ps.length ++ (ps.flatMap policyBytes ++
      (utilityMqttWriteUint16 gs.length ++ (gs.flatMap groupBytes ++ rest)))) = .ok (gs.map luaGroup) := by
  obtain ⟨rules, hids, h⟩ := decodePolicy_groups hps behind hn hk (gs.flatMap groupBytes ++ rest)
  rw [← hids] at hgs
  have ht := times_encoded_map (S := fun (_ : Unit) bs => bs) (N := fun a _ => a) (I := fun _ => True)
    (fun _ _ h => h) (fun _ _ rest _ hg => decodeGroup_good behind hg rest) hgs (a := ()) trivial rest
  rw [h, ht]
  rfl

theorem decodePolicy_refusedPolicy {n : Nat} (hn : ps.length < n ∧ n ≤ 65535) {rest : Bytes}
    (hrest : RefusedPolicy rest) :
    ∃ e, decodePolicy behind (utilityMqttWriteUint16 n ++ (ps.flatMap policyBytes ++ rest)) = .error e := by
  obtain ⟨e, he⟩ := times_encoded_error (S := fun (_ : Unit) bs => bs) (N := fun a _ => a)
    (I := fun _ => True) (fun _ _ h => h) (decodeRule_item behind) hps (a := ()) trivial
    (fun _ _ => decodeRule_refused behind hrest) hn.1
  refine ⟨e, ?_⟩
  rw [decodePolicy, luaReadUint16_write, Nat.mod_eq_of_lt (show n < 2 ^ 16 by omega)]
  simp only
  rw [he]
  rfl

theorem decodePolicy_refusedGroup (hn : ps.length ≤ 65535) {gs : List ServerGroup} {k : Nat}
    (hk : gs.length < k ∧ k ≤ 65535) (hgs : ∀ g ∈ gs, GoodGroup (ps.map ServerPolicy.id) g) {rest : Bytes}
    (hrest : RefusedGroup rest) :
    ∃ e, decodePolicy behind (utilityMqttWriteUint16 ps.length ++ (ps.flatMap policyBytes ++
      (utilityMqttWriteUint16 k ++ (gs.flatMap groupBytes ++ rest)))) = .error e := by
  obtain ⟨rules, hids, h⟩ := decodePolicy_groups hps behind hn hk.2 (gs.flatMap groupBytes ++ rest)
  rw [← hids] at hgs
  have hitem : ∀ (_ : Unit) (g : ServerGroup) (rest : Bytes), True → GoodGroup (rules.map LuaRule.id) g →
      ∃ l, True ∧ decodeGroup behind rules (groupBytes g ++ rest) = .ok (l, rest) := by
    intro _ g rest _ hg
    exact ⟨_, trivial, decodeGroup_good behind hg rest⟩
  obtain ⟨e, he⟩ := times_encoded_error (S := fun (_ : Unit) bs => bs) (N := fun a _ => a)
    (I := fun _ => True) (fun _ _ h => h) hitem hgs (a := ()) trivial
    (fun _ _ => decodeGroup_refused behind rules hrest) hk.1
  exact ⟨e, by rw [h, he]; rfl⟩

end Lua

section C

variable (rodata : Rodata) (m : Mem) {s : Shm} (hg : s.policyGroup = [])
  (hv : s.globalBitvector1.isSome = hasVector)

omit hps in
/-- The decoder says `NGX_OK` only if the table is read. -/
theorem decode_ne_ok (hg : s.policyGroup = []) {n : Nat} (hn : n ≤ 65535) {bs : Bytes}
    (h : ∀ t, readTable rodata n (.full bs m, s.globalBitvector1) ≠ .ok t) :
    (diversionDecodePolicy rodata s (.full (utilityMqttWriteUint16 n ++ bs) m) s.version).1 ≠ .ok := by
  intro hok
  have hmod : n % 2 ^ 16 = n := Nat.mod_eq_of_lt (by omega)
  obtain ⟨-, t, ht, -⟩ := (diversionDecodePolicy_eq_ok hg hmod).1 (Prod.ext hok rfl)
  exact h t ht

include hg hv in
theorem decode_accepted (hp : ps ≠ [] ∧ ps.length ≤ 65535) {gs : List ServerGroup}
    (hk : gs ≠ [] ∧ gs.length ≤ 65535) (hgs : ∀ g ∈ gs, GoodGroup (ps.map ServerPolicy.id) g)
    (rest : Bytes) :
    ∃ s', diversionDecodePolicy rodata s (.full (utilityMqttWriteUint16 ps.length ++
        (ps.flatMap policyBytes ++ (utilityMqttWriteUint16 gs.length ++
          (gs.flatMap groupBytes ++ rest)))) m) s.version = (.ok, s') ∧
      List.Forall₂ (StoredGroup s'.policys) gs s'.policyGroup := by
  subst hv
  have hpos : ps.length ≠ 0 := fun h0 => hp.1 (List.length_eq_zero_iff.1 h0)
  have hmod : ps.length % 2 ^ 16 = ps.length := Nat.mod_eq_of_lt (by omega)
  obtain ⟨qs, hst, hqs⟩ := readPolicys_good rodata m (fun p hp => (hps p hp).good)
    (utilityMqttWriteUint16 gs.length ++ (gs.flatMap groupBytes ++ rest))
  rw [← map_id_of_stored hst] at hgs
  obtain ⟨ks, hks, hr⟩ := readGroups_good m hk.1 hk.2 hgs rest
  have ht := readTable_eq_ok.2 ⟨qs, _, ks, hqs, hr, rfl⟩
  exact ⟨_, (diversionDecodePolicy_eq_ok hg hmod).2 ⟨hpos, _, ht, rfl⟩, hks⟩

include hg hv in
theorem decode_refusedPolicy {n : Nat} (hn : ps.length < n ∧ n ≤ 65535) {rest : Bytes}
    (hrest : RefusedPolicy rest) :
    (diversionDecodePolicy rodata s (.full (utilityMqttWriteUint16 n ++ (ps.flatMap policyBytes ++ rest)) m)
      s.version).1 ≠ .ok := by
  subst hv
  obtain ⟨e, he⟩ := times_encoded_error (S := fun bv bs => (Dec.full bs m, bv)) (N := loadBits)
    (I := fun bv => bv.isSome = s.globalBitvector1.isSome)
    (fun bv p hbv => (isSome_loadBits bv p).trans hbv) (readPolicy_good rodata m)
    (fun p hp => (hps p hp).good) rfl (fun bv _ => readPolicy_refused rodata m hrest bv) hn.1
  refine decode_ne_ok rodata m hg hn.2 ?_
  intro t ht
  obtain ⟨qs, s1, gs, hqs, -⟩ := readTable_eq_ok.1 ht
  rw [he] at hqs
  simp at hqs

include hg hv in
theorem decode_refusedGroup (hp : ps.length ≤ 65535) {gs : List ServerGroup} {k : Nat}
    (hk : gs.length < k ∧ k ≤ 65535) (hgs : ∀ g ∈ gs, GoodGroup (ps.map ServerPolicy.id) g) {rest : Bytes}
    (hrest : RefusedGroup rest) :
    (diversionDecodePolicy rodata s (.full (utilityMqttWriteUint16 ps.length ++ (ps.flatMap policyBytes ++
      (utilityMqttWriteUint16 k ++ (gs.flatMap groupBytes ++ rest)))) m) s.version).1 ≠ .ok := by
  subst hv
  have hmod : k % 2 ^ 16 = k := Nat.mod_eq_of_lt (by omega)
  obtain ⟨qs, hst, hqs⟩ := readPolicys_good rodata m (fun p hp => (hps p hp).good)
    (utilityMqttWriteUint16 k ++ (gs.flatMap groupBytes ++ rest))
  rw [← map_id_of_stored hst] at hgs
  obtain ⟨e, he⟩ := times_encoded_error (S := fun (_ : Unit) bs => Dec.full bs m) (N := fun a _ => a)
    (I := fun _ => True) (fun _ _ h => h) (readGroup_good m) hgs (a := ()) trivial
    (fun _ _ => readGroup_refused m qs.1 hrest) hk.1
  refine decode_ne_ok rodata m hg hp ?_
  intro t ht
  obtain ⟨qs', s1, ks, hqs', hks, -⟩ := readTable_eq_ok.1 ht
  rw [hqs] at hqs'
  obtain ⟨rfl, rfl⟩ := Prod.mk.inj (Except.ok.inj hqs')
  obtain ⟨-, r, hr, -⟩ := (readGroups_eq_ok hmod).1 hks
  rw [he] at hr
  simp at hr

end C

end Messages

theorem decodersAgree_of_refused {rodata : Rodata} {s : Shm} {bs : Bytes} {after : Mem} {behind : Behind}
    (hlua : ∃ e, decodePolicy behind bs = .error e)
    (hc : (diversionDecodePolicy rodata s (.full bs after) s.version).1 ≠ .ok) :
    DecodersAgree rodata s bs after behind := by
  obtain ⟨e, he⟩ := hlua
  have hno : ¬ ∃ gs, decodePolicy behind bs = .ok gs := by
    rintro ⟨gs, hgs⟩
    rw [he] at hgs
    simp at hgs
  exact ⟨iff_of_false hno hc, fun gs _ hgs => absurd ⟨gs, hgs⟩ hno⟩

/-- **The two decoders** agree on every plain message, whatever memory lies behind it. -/
theorem decoders_agree {s : Shm} {bs : Bytes} (hg : s.policyGroup = [])
    (h : Plain s.globalBitvector1.isSome bs) (rodata : Rodata) (after : Mem) (behind : Behind) :
    DecodersAgree rodata s bs after behind := by
  cases h with
  | refusedPolicy hn hps hrest =>
    exact decodersAgree_of_refused (decodePolicy_refusedPolicy hps behind hn hrest)
      (decode_refusedPolicy hps rodata after hg rfl hn hrest)
  | refusedGroup hp hps hk hgs hrest =>
    exact decodersAgree_of_refused (decodePolicy_refusedGroup hps behind hp.2 hk hgs hrest)
      (decode_refusedGroup hps rodata after hg rfl hp.2 hk hgs hrest)
  | accepted hp hps hk hgs =>
    rename_i ps gs rest
    have hlua := decodePolicy_accepted hps behind hp.2 hk.2 hgs rest
    obtain ⟨s', hs', hst⟩ := decode_accepted hps rodata after hg rfl hp hk hgs rest
    refine ⟨iff_of_true ⟨_, hlua⟩ (by rw [hs']), ?_⟩
    intro ls s'' hls hs''
    obtain rfl := Except.ok.inj (hlua.symm.trans hls)
    obtain ⟨-, rfl⟩ := Prod.mk.inj (hs'.symm.trans hs'')
    rw [List.forall₂_map_left_iff]
    exact hst

/-- The message of `rangeAndSuffix`. -/
def rangeAndSuffixMsg (action : Nat) : Bytes :=
  utilityMqttWriteUint16 2 ++ tableBytes (rangeAndSuffix action)

theorem plain_rangeAndSuffixMsg : Plain false (rangeAndSuffixMsg 1) := by
  have hs := servable_rangeAndSuffix (show 1 ≤ 65535 by decide)
  have hps : ∀ p ∈ (rangeAndSuffix 1).policys, PlainPolicy false p := by
    intro p hp
    have hfits := (hs.policys.2 p hp).fits
    simp only [rangeAndSuffix, List.mem_cons, List.not_mem_nil, or_false] at hp
    rcases hp with rfl | rfl
    · exact ⟨⟨hfits, by decide⟩, by decide, by decide⟩
    · exact ⟨⟨hfits, by decide⟩, by decide, by decide⟩
  have hgs : ∀ g ∈ (rangeAndSuffix 1).groups,
      GoodGroup ((rangeAndSuffix 1).policys.map ServerPolicy.id) g := by
    intro g hg
    refine ⟨hs.groups.2 g hg, ?_⟩
    obtain rfl := List.mem_singleton.1 hg
    exact ⟨by decide, by decide, by decide⟩
  have h := @Plain.accepted false _ _ [] ⟨hs.policys.1, by decide⟩ hps ⟨hs.groups.1, by decide⟩ hgs
  rw [List.append_nil] at h
  exact h

theorem decoders_agree_redirect :
    Plain false (rangeAndSuffixMsg 1) ∧
    DecodersAgree (fun _ => Stream'.const 0) (initialState false) (rangeAndSuffixMsg 1) (Stream'.const 0)
      (fun _ => Stream'.const 0) :=
  ⟨plain_rangeAndSuffixMsg, decoders_agree (s := initialState false) rfl plain_rangeAndSuffixMsg _ _ _⟩

/-- With action 0 the Lua decoder returns the group and the C decoder an error. -/
theorem decoders_differ_upstream :
    ¬ DecodersAgree (fun _ => Stream'.const 0) (initialState false) (rangeAndSuffixMsg 0) (Stream'.const 0)
      (fun _ => Stream'.const 0) := by
  have hlua : (decodePolicy (fun _ => Stream'.const 0) (rangeAndSuffixMsg 0)).isOk = true := by
    decide +kernel
  have hc : (diversionDecodePolicy (fun _ => Stream'.const 0) (initialState false)
      (.full (rangeAndSuffixMsg 0) (Stream'.const 0)) (initialState false).version).1 ≠ .ok := by
    decide +kernel
  rintro ⟨hiff, -⟩
  apply hc
  apply hiff.1
  cases h : decodePolicy (fun _ => Stream'.const 0) (rangeAndSuffixMsg 0) with
  | error e =>
    rw [h] at hlua
    simp [Except.isOk, Except.toBool] at hlua
  | ok gs => exact ⟨gs, rfl⟩

end NgxPlus.Diversion
