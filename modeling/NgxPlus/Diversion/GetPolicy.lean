import NgxPlus.Diversion.FirstMatch
import NgxPlus.Diversion.LuaCodec

/-!
# The policy message: `lib/admin/get_policy.lua` against `diversion_decode_policy`

| here | there |
| --- | --- |
| `ServerPolicy`, `ServerGroup`  | rows of `t_policy` and `t_policy_group`, with the rows of the queries made for each |
| `printPolicy`                  | the loop body (`get_policy.lua:54-94`): three branches by type |
| `printGroups`                  | the loop over groups (`:111-141`); a group without policies ends the body |
| `getPolicy`                    | the script's body (`:46-141`) |

A configuration is what the script holds after `tonumber`, so a number is an integer; a range
end is passed as an `int64_t`.

`policy_roundtrip_iff`: the C decoder takes the message back exactly when `Faithful` holds of
the configuration. What it excludes follows from `NGX_UINTX_ERROR` being 0 (action 0, a range
from 0, an empty list), from 16-bit counts, and from `oidrange`, which the server writes and
the decoder's table does not have.
-/

namespace NgxPlus.Diversion

open ByteMem Decode Rbtree

/-! ## The server script -/

structure ServerPolicy where
  id : Nat
  type : Bytes
  bitsetid : Nat
  /-- `t_policy_range`, at most 50000 rows. -/
  ranges : List (Nat × Nat)
  /-- `t_policy_numset`, at most 50000 rows. -/
  vals : List Nat
deriving DecidableEq, Repr

structure ServerGroup where
  uri : Bytes
  action : Nat
  backend : Bytes
  /-- `none` is Lua's `nil`, which the script tests for; a `NULL` of the database comes as `ngx.null`. -/
  text : Option Bytes
  pids : List Nat
deriving DecidableEq, Repr

structure ServerConfig where
  policys : List ServerPolicy
  groups : List ServerGroup

def aidset : Bytes := ascii ['a', 'i', 'd', 's', 'e', 't']
def cidset : Bytes := ascii ['c', 'i', 'd', 's', 'e', 't']
def oidset : Bytes := ascii ['o', 'i', 'd', 's', 'e', 't']
def iprange : Bytes := ascii ['i', 'p', 'r', 'a', 'n', 'g', 'e']
def aidrange : Bytes := ascii ['a', 'i', 'd', 'r', 'a', 'n', 'g', 'e']
def cidrange : Bytes := ascii ['c', 'i', 'd', 'r', 'a', 'n', 'g', 'e']
def oidrange : Bytes := ascii ['o', 'i', 'd', 'r', 'a', 'n', 'g', 'e']
def ipset : Bytes := ascii ['i', 'p', 's', 'e', 't']
def aidsuffix : Bytes := ascii ['a', 'i', 'd', 's', 'u', 'f', 'f', 'i', 'x']
def cidsuffix : Bytes := ascii ['c', 'i', 'd', 's', 'u', 'f', 'f', 'i', 'x']
def bitset : Bytes := ascii ['b', 'i', 't', 's', 'e', 't']

def setTypes : List Bytes := [aidset, cidset, oidset]

def rangeTypes : List Bytes := [iprange, aidrange, cidrange, oidrange]

/-- Id, type, bitset id and number of rows. -/
def printHead (p : ServerPolicy) (len : Nat) : Except LuaError Bytes := do
  let type ← encodeUtf8 p.type
  return utilityMqttWriteUint32 p.id ++ type ++ utilityMqttWriteUint16 p.bitsetid ++
    utilityMqttWriteUint16 len

def rangeBytes (r : Nat × Nat) : Bytes := utilityMqttWriteUint64 r.1 ++ utilityMqttWriteUint64 r.2

def printPolicy (p : ServerPolicy) : Except LuaError Bytes :=
  if p.type ∈ setTypes then printHead p 0
  else if p.type ∈ rangeTypes then do
    let head ← printHead p p.ranges.length
    return head ++ p.ranges.flatMap rangeBytes
  else do
    let head ← printHead p p.vals.length
    return head ++ p.vals.flatMap utilityMqttWriteUint32

def printPolicys : List ServerPolicy → Except LuaError Bytes
  | [] => .ok []
  | p :: ps => do
    let buf ← printPolicy p
    let rest ← printPolicys ps
    return buf ++ rest

def printGroup (g : ServerGroup) : Except LuaError Bytes := do
  let uri ← encodeUtf8 g.uri
  let backend ← encodeUtf8 g.backend
  let text ← encodeUtf8 (g.text.getD [])
  return uri ++ utilityMqttWriteUint16 g.action ++ backend ++ text ++
    utilityMqttWriteUint16 g.pids.length ++ g.pids.flatMap utilityMqttWriteUint32

def printGroups : List ServerGroup → Except LuaError Bytes
  | [] => .ok []
  | g :: gs =>
    if g.pids = [] then .ok []
    else do
      let buf ← printGroup g
      let rest ← printGroups gs
      return buf ++ rest

def getPolicy (cfg : ServerConfig) : Except LuaError Bytes :=
  if cfg.policys = [] then .error (.exit 500)
  else do
    let policys ← printPolicys cfg.policys
    let buf := utilityMqttWriteUint16 cfg.policys.length ++ policys
    if cfg.groups = [] then return buf
    else do
      let groups ← printGroups cfg.groups
      return buf ++ utilityMqttWriteUint16 cfg.groups.length ++ groups

/-! ## What was sent, and what is stored -/

/-- The decoder puts the numbers into `global_bitvector_1`. -/
def ServerPolicy.BitBacked (p : ServerPolicy) : Prop := p.type = ipset ∧ p.bitsetid % 2 ^ 8 = 1

instance (p : ServerPolicy) : Decidable p.BitBacked := inferInstanceAs (Decidable (_ ∧ _))

/-- Same id and type, and the rows of the branch the type takes; a set's numbers come later. -/
def StoredPolicy (p : ServerPolicy) (q : DiversionPolicy) : Prop :=
  q.id = p.id ∧ (confPtype q.type).name = p.type ∧
  if p.type ∈ setTypes then q.data = .bitVector ∨ q.data = .rbtree .init
  else if p.type ∈ rangeTypes then q.data = .ranges (p.ranges.map fun r => ⟨r.1, r.2⟩)
  else if p.BitBacked then q.data = .bitVector
  else q.datalen = p.vals.length ∧ ∃ b, q.data = .nums b ∧ arrayNums p.vals.length (memOf b) = p.vals

/-- Same uri, action, backend and text, and references to policies with the ids sent. -/
def StoredGroup (policys : List DiversionPolicy) (g : ServerGroup) (h : DiversionPolicyGroup) : Prop :=
  h.uri = .of g.uri ∧ h.action = g.action ∧ h.backend = .of g.backend ∧ h.text = .of (g.text.getD []) ∧
  List.Forall₂ (fun pid k => ∃ q, policys[k]? = some q ∧ q.id = pid) g.pids h.policys

/-- The vector has got the numbers of the bit-backed policies. -/
def StoredBits (cfg : ServerConfig) (old new : Option BitVector) : Prop :=
  match old, new with
  | none, none => True
  | some bv, some bv' => ∀ v < 2 ^ 32, utilityBitVectorGet bv' v = true ↔
      utilityBitVectorGet bv v = true ∨ ∃ p ∈ cfg.policys, p.BitBacked ∧ v ∈ p.vals
  | _, _ => False

/-- The message is printed, taken for the stored version, and stored as it was sent. -/
def PolicyRoundTrip (rodata : Rodata) (s : Shm) (cfg : ServerConfig) (after : Mem) : Prop :=
  ∃ buf s', getPolicy cfg = .ok buf ∧
    diversionDecodePolicy rodata s (.full buf after) s.version = (.ok, s') ∧
    List.Forall₂ StoredPolicy cfg.policys s'.policys ∧
    List.Forall₂ (StoredGroup s'.policys) cfg.groups s'.policyGroup ∧
    StoredBits cfg s.globalBitvector1 s'.globalBitvector1

/-- What the script can find in the tables. The server has no branch for `bitset` and
`t_policy_type` no row. -/
structure ServerPolicy.Servable (p : ServerPolicy) : Prop where
  id : 0 < p.id ∧ p.id < 2 ^ 32
  type : p.type.length ≤ 65535 ∧ p.type ≠ bitset
  ranges : p.ranges.length ≤ 50000 ∧ ∀ r ∈ p.ranges, r.1 ≤ r.2 ∧ r.2 < 2 ^ 63
  vals : p.vals.length ≤ 50000 ∧ ∀ v ∈ p.vals, v < 2 ^ 32

/-- The numbers fit their fields. -/
structure ServerPolicy.Fits (p : ServerPolicy) : Prop where
  id : 0 < p.id ∧ p.id < 2 ^ 32
  ranges : p.ranges.length ≤ 65535 ∧ ∀ r ∈ p.ranges, r.1 < 2 ^ 64 ∧ r.2 < 2 ^ 64
  vals : p.vals.length ≤ 65535 ∧ ∀ v ∈ p.vals, v < 2 ^ 32

theorem ServerPolicy.Servable.fits {p : ServerPolicy} (h : p.Servable) : p.Fits := by
  have hr := h.ranges.1
  have hv := h.vals.1
  refine ⟨h.id, ⟨by omega, ?_⟩, ⟨by omega, h.vals.2⟩⟩
  intro r hmem
  have hb := h.ranges.2 r hmem
  omega

structure ServerGroup.Servable (g : ServerGroup) : Prop where
  strings : g.uri.length ≤ 65535 ∧ g.backend.length ≤ 65535 ∧ (g.text.getD []).length ≤ 65535
  action : g.action ≤ 65535
  pids : g.pids ≠ [] ∧ ∀ pid ∈ g.pids, pid < 2 ^ 32

/-- The table is empty, and the configuration is one the script serialises. -/
structure Servable (s : Shm) (cfg : ServerConfig) : Prop where
  table : s.policyGroup = []
  vector : ∀ bv, s.globalBitvector1 = some bv → bv.Covers32
  policys : cfg.policys ≠ [] ∧ ∀ p ∈ cfg.policys, p.Servable
  groups : cfg.groups ≠ [] ∧ ∀ g ∈ cfg.groups, g.Servable

/-! ## When they agree -/

def FaithfulPolicy (hasVector : Bool) (p : ServerPolicy) : Prop :=
  if p.type ∈ setTypes then True
  else if p.type ∈ rangeTypes then p.type ≠ oidrange ∧ p.ranges ≠ [] ∧ ∀ r ∈ p.ranges, 1 ≤ r.1 ∧ 1 ≤ r.2
  else if p.BitBacked then p.vals = [] ∨ hasVector = true
  else p.type ∈ [ipset, aidsuffix, cidsuffix] ∧ p.vals ≠ []

instance (hasVector : Bool) (p : ServerPolicy) : Decidable (FaithfulPolicy hasVector p) :=
  inferInstanceAs (Decidable (ite _ _ _))

structure FaithfulGroup (ids : List Nat) (g : ServerGroup) : Prop where
  strings : g.uri.length < 65535 ∧ g.backend.length < 65535 ∧ (g.text.getD []).length < 65535
  action : 1 ≤ g.action
  pids : g.pids.length ≤ 65535 ∧ ∀ pid ∈ g.pids, pid ∈ ids

/-- The condition on the configuration (and on a vector being configured). -/
structure Faithful (hasVector : Bool) (cfg : ServerConfig) : Prop where
  counts : cfg.policys.length ≤ 65535 ∧ cfg.groups.length ≤ 65535
  policys : ∀ p ∈ cfg.policys, FaithfulPolicy hasVector p
  groups : ∀ g ∈ cfg.groups, FaithfulGroup (cfg.policys.map ServerPolicy.id) g

/-! ## The bytes -/

/-- The rows a policy's branch sends. -/
def rowCount (p : ServerPolicy) : Nat :=
  if p.type ∈ setTypes then 0 else if p.type ∈ rangeTypes then p.ranges.length else p.vals.length

def rowBytes (p : ServerPolicy) : Bytes :=
  if p.type ∈ setTypes then []
  else if p.type ∈ rangeTypes then p.ranges.flatMap rangeBytes
  else p.vals.flatMap utilityMqttWriteUint32

def policyBytes (p : ServerPolicy) : Bytes :=
  utilityMqttWriteUint32 p.id ++ (utf8Bytes p.type ++ (utilityMqttWriteUint16 p.bitsetid ++
    (utilityMqttWriteUint16 (rowCount p) ++ rowBytes p)))

def groupBytes (g : ServerGroup) : Bytes :=
  utf8Bytes g.uri ++ (utilityMqttWriteUint16 g.action ++ (utf8Bytes g.backend ++
    (utf8Bytes (g.text.getD []) ++ (utilityMqttWriteUint16 g.pids.length ++
      g.pids.flatMap utilityMqttWriteUint32))))

theorem printPolicy_ok {p : ServerPolicy} (h : p.type.length ≤ 65535) :
    printPolicy p = .ok (policyBytes p) := by
  have hhead : ∀ n, printHead p n = .ok (utilityMqttWriteUint32 p.id ++ (utf8Bytes p.type ++
      (utilityMqttWriteUint16 p.bitsetid ++ utilityMqttWriteUint16 n))) := by
    intro n
    rw [printHead, encodeUtf8_ok h]
    simp [utf8Bytes, pure, Except.pure]
  unfold printPolicy policyBytes rowCount rowBytes
  split
  · rw [hhead]
    simp
  · split
    · rw [hhead]
      simp [pure, Except.pure]
    · rw [hhead]
      simp [pure, Except.pure]

theorem printPolicys_ok {ps : List ServerPolicy} (h : ∀ p ∈ ps, p.type.length ≤ 65535) :
    printPolicys ps = .ok (ps.flatMap policyBytes) := by
  induction ps with
  | nil => rfl
  | cons p ps ih =>
    rw [printPolicys, printPolicy_ok (h p List.mem_cons_self), ok_bind,
      ih fun q hq => h q (List.mem_cons_of_mem _ hq)]
    rfl

theorem printGroups_ok {gs : List ServerGroup} (h : ∀ g ∈ gs, g.Servable) :
    printGroups gs = .ok (gs.flatMap groupBytes) := by
  induction gs with
  | nil => rfl
  | cons g gs ih =>
    have hg := h g List.mem_cons_self
    have hprint : printGroup g = .ok (groupBytes g) := by
      rw [printGroup, encodeUtf8_ok hg.strings.1, encodeUtf8_ok hg.strings.2.1,
        encodeUtf8_ok hg.strings.2.2]
      simp [groupBytes, utf8Bytes, pure, Except.pure]
    rw [printGroups, if_neg hg.pids.1, hprint, ok_bind, ih fun k hk => h k (List.mem_cons_of_mem _ hk)]
    rfl

theorem getPolicy_ok {s : Shm} {cfg : ServerConfig} (h : Servable s cfg) :
    getPolicy cfg = .ok (utilityMqttWriteUint16 cfg.policys.length ++ (cfg.policys.flatMap policyBytes ++
      (utilityMqttWriteUint16 cfg.groups.length ++ cfg.groups.flatMap groupBytes))) := by
  rw [getPolicy, if_neg h.policys.1, printPolicys_ok fun p hp => (h.policys.2 p hp).type.1, ok_bind]
  simp only
  rw [if_neg h.groups.1, printGroups_ok h.groups.2]
  simp [pure, Except.pure]

/-! ## One policy -/

theorem readPolicyHead_full {p : ServerPolicy} (hid : 0 < p.id ∧ p.id < 2 ^ 32)
    (htype : p.type.length < 65535) {n : Nat} (hn : n ≤ 65535) (rest : Bytes) (m : Mem) :
    readPolicyHead (.full (utilityMqttWriteUint32 p.id ++ (utf8Bytes p.type ++
      (utilityMqttWriteUint16 p.bitsetid ++ (utilityMqttWriteUint16 n ++ rest)))) m) =
      .ok (⟨p.id, p.type, p.bitsetid % 2 ^ 8, n⟩, .full rest m) := by
  have hmod : p.bitsetid % 2 ^ 16 % 2 ^ 8 = p.bitsetid % 2 ^ 8 := Nat.mod_mod_of_dvd _ (by decide)
  have hne : p.id ≠ ngxUintxError := by have := hid.1; unfold ngxUintxError; omega
  rw [readPolicyHead, Dec.readUint32_write, Nat.mod_eq_of_lt hid.2]
  simp only [hne, if_false]
  rw [readString_utf8 htype, ok_bind]
  simp only
  rw [Dec.readUint16_write]
  simp only
  rw [Dec.readUint16_write, hmod, Nat.mod_eq_of_lt (show n < 2 ^ 16 by omega)]
  rfl

theorem findPtype_set (rodata : Rodata) {t : Bytes} (h : t ∈ setTypes) :
    ∃ e, findPtype rodata t = some e ∧ e.name = t ∧ e.stype = .rbtree := by
  simp only [setTypes, List.mem_cons, List.not_mem_nil, or_false] at h
  rcases h with rfl | rfl | rfl <;> exact ⟨_, rfl, rfl, rfl⟩

theorem findPtype_range (rodata : Rodata) {t : Bytes} (h : t ∈ rangeTypes) (ho : t ≠ oidrange) :
    ∃ e, findPtype rodata t = some e ∧ e.name = t ∧ e.stype = .range := by
  simp only [rangeTypes, List.mem_cons, List.not_mem_nil, or_false] at h
  rcases h with rfl | rfl | rfl | rfl
  · exact ⟨_, rfl, rfl, rfl⟩
  · exact ⟨_, rfl, rfl, rfl⟩
  · exact ⟨_, rfl, rfl, rfl⟩
  · exact absurd rfl ho

theorem findPtype_ipset (rodata : Rodata) :
    ∃ e, findPtype rodata ipset = some e ∧ e.name = ipset ∧ e.stype = .numSet := ⟨_, rfl, rfl, rfl⟩

theorem findPtype_suffix (rodata : Rodata) {t : Bytes} (h : t ∈ [aidsuffix, cidsuffix]) :
    ∃ e, findPtype rodata t = some e ∧ e.name = t ∧ e.stype = .suffix := by
  simp only [List.mem_cons, List.not_mem_nil, or_false] at h
  rcases h with rfl | rfl <;> exact ⟨_, rfl, rfl, rfl⟩

/-- The header a policy's entry starts with. -/
def headOf (p : ServerPolicy) : PolicyHead := ⟨p.id, p.type, p.bitsetid % 2 ^ 8, rowCount p⟩

theorem rowCount_le {p : ServerPolicy} (h : p.Fits) : rowCount p ≤ 65535 := by
  have h1 := h.ranges.1
  have h2 := h.vals.1
  unfold rowCount
  split_ifs <;> omega

theorem rows_set {p : ServerPolicy} (h : p.type ∈ setTypes) : rowCount p = 0 ∧ rowBytes p = [] :=
  ⟨if_pos h, if_pos h⟩

theorem rows_range {p : ServerPolicy} (h : p.type ∈ rangeTypes) :
    rowCount p = p.ranges.length ∧ rowBytes p = p.ranges.flatMap rangeBytes := by
  have hno : ∀ t ∈ rangeTypes, t ∉ setTypes := by decide
  exact ⟨(if_neg (hno _ h)).trans (if_pos h), (if_neg (hno _ h)).trans (if_pos h)⟩

theorem rows_nums {p : ServerPolicy} (hs : p.type ∉ setTypes) (hr : p.type ∉ rangeTypes) :
    rowCount p = p.vals.length ∧ rowBytes p = p.vals.flatMap utilityMqttWriteUint32 :=
  ⟨(if_neg hs).trans (if_neg hr), (if_neg hs).trans (if_neg hr)⟩

/-- Behind a short type name, an entry is decided by the table and the store type. -/
theorem readPolicy_full {p : ServerPolicy} (h : p.Fits) (ht : p.type.length < 65535)
    (rodata : Rodata) (rest : Bytes) (m : Mem) (bv : Option BitVector) :
    readPolicy rodata (.full (policyBytes p ++ rest) m, bv) =
      match findPtype rodata p.type with
      | none => .error .error
      | some conf => do
        let (data, s) ← readPolicyData conf.stype (headOf p) (.full (rowBytes p ++ rest) m, bv)
        return (⟨conf.value, rowCount p, p.id, p.bitsetid % 2 ^ 8, data.1, data.2⟩, s) := by
  rw [readPolicy, policyBytes]
  simp only [List.append_assoc]
  rw [readPolicyHead_full h.id ht (rowCount_le h), ok_bind]
  rfl

/-- Both ends fit and neither is the error value. -/
def GoodRange (r : Nat × Nat) : Prop := (1 ≤ r.1 ∧ 1 ≤ r.2) ∧ r.1 < 2 ^ 64 ∧ r.2 < 2 ^ 64

theorem readRange_good {r : Nat × Nat} (h : GoodRange r) (rest : Bytes) (m : Mem) :
    readRange (.full (rangeBytes r ++ rest) m) = .ok (⟨r.1, r.2⟩, .full rest m) := by
  obtain ⟨⟨h1, h2⟩, hlt1, hlt2⟩ := h
  have hs : r.1 ≠ ngxUintxError := by unfold ngxUintxError; omega
  have he : r.2 ≠ ngxUintxError := by unfold ngxUintxError; omega
  rw [readRange, rangeBytes, List.append_assoc, Dec.readUint64_write, Nat.mod_eq_of_lt hlt1]
  simp only [hs, if_false]
  rw [Dec.readUint64_write, Nat.mod_eq_of_lt hlt2]
  simp only [he, if_false]

theorem readRange_zero {r : Nat × Nat} (h : ¬ (1 ≤ r.1 ∧ 1 ≤ r.2)) (rest : Bytes) (m : Mem) :
    readRange (.full (rangeBytes r ++ rest) m) = .error .error := by
  rw [readRange, rangeBytes, List.append_assoc, Dec.readUint64_write]
  simp only
  split
  · rfl
  · rename_i hs
    have h2 : r.2 = 0 := by
      have h1 : r.1 ≠ 0 := fun h0 => hs (by rw [h0]; rfl)
      omega
    rw [Dec.readUint64_write, h2]
    rfl

theorem readRanges_good {rs : List (Nat × Nat)} (h : ∀ r ∈ rs, GoodRange r) (rest : Bytes) (m : Mem) :
    times readRange rs.length (.full (rs.flatMap rangeBytes ++ rest) m) =
      .ok (⟨rs.map fun r => ⟨r.1, r.2⟩, List.length_map _⟩, .full rest m) :=
  times_encoded_map (S := fun (_ : Unit) bs => Dec.full bs m) (N := fun a _ => a)
    (I := fun _ => True) (fun _ _ h => h) (fun _ _ rest _ hr => readRange_good hr rest m) h (a := ())
    trivial rest

/-- A range list is taken only if no end is 0. -/
theorem one_le_of_readRanges {rs : List (Nat × Nat)} (h : ∀ r ∈ rs, r.1 < 2 ^ 64 ∧ r.2 < 2 ^ 64)
    {rest : Bytes} {m : Mem} {n : Nat} (hn : n = rs.length)
    {r : {ys : List DiversionPolicyRange // ys.length = n} × Dec}
    (hr : times readRange n (.full (rs.flatMap rangeBytes ++ rest) m) = .ok r) :
    ∀ r ∈ rs, 1 ≤ r.1 ∧ 1 ≤ r.2 := by
  subst hn
  have hall := forall_of_times_ok (S := fun (_ : Unit) bs => Dec.full bs m) (N := fun a _ => a)
    (I := fun _ => True) (a := ()) (fun _ _ h => h) (fun _ _ rest _ hr => readRange_good hr rest m)
    ?_ trivial hr
  · intro x hx
    exact (hall x hx).1
  · intro _ x hx rest _ hbad
    exact ⟨_, readRange_zero (fun h1 => hbad ⟨h1, h x hx⟩) rest m⟩

theorem length_flatMap_write (vals : List Nat) :
    (vals.flatMap utilityMqttWriteUint32).length = 4 * vals.length := by
  induction vals with
  | nil => rfl
  | cons v vals ih =>
    rw [List.flatMap_cons, List.length_append, ih, length_writeUint32, List.length_cons]
    omega

/-- The copied array holds the numbers that were written. -/
theorem arrayNums_write {vals : List Nat} (h : ∀ v ∈ vals, v < 2 ^ 32) (m : Mem) :
    arrayNums vals.length (vals.flatMap utilityMqttWriteUint32 ++ₛ m) = vals := by
  induction vals with
  | nil => rfl
  | cons v vals ih =>
    rw [List.length_cons, arrayNums_succ, List.flatMap_cons, Stream'.append_append_stream,
      readUint32_write, Nat.mod_eq_of_lt (h v List.mem_cons_self),
      drop_append_of_eq _ _ (length_writeUint32 v), ih fun w hw => h w (List.mem_cons_of_mem _ hw)]

theorem readNums_full {h : PolicyHead} {vals : List Nat} (hlen : h.datalen = vals.length)
    (hne : vals ≠ []) (rest : Bytes) (m : Mem) (bv : Option BitVector) :
    ∃ data : DataOf h, data.1 = .nums (vals.flatMap utilityMqttWriteUint32) ∧
      readNums h (.full (vals.flatMap utilityMqttWriteUint32 ++ rest) m, bv) =
        .ok (data, (.full rest m, bv)) := by
  have hpos : h.datalen ≠ 0 := by
    rw [hlen]
    exact fun h0 => hne (List.length_eq_zero_iff.1 h0)
  have hl := length_flatMap_write vals
  rw [← hlen] at hl
  refine ⟨⟨.nums (vals.flatMap utilityMqttWriteUint32), hl⟩, rfl, ?_⟩
  have htake : (Dec.full (vals.flatMap utilityMqttWriteUint32 ++ rest) m).p.take (4 * h.datalen) =
      vals.flatMap utilityMqttWriteUint32 := by
    show (_ ++ rest ++ₛ m).take _ = _
    rw [Stream'.append_append_stream]
    exact take_append_of_eq _ _ hl
  have hadv : (Dec.full (vals.flatMap utilityMqttWriteUint32 ++ rest) m).adv (4 * h.datalen) =
      .full rest m := by
    rw [← hl]
    exact Dec.adv_append _ _ _ _
  rw [readNums, if_neg hpos]
  simp only [Dec.slabAlloc_full, ok_bind, htake, hadv]
  rfl

theorem setNumBits_full {vals : List Nat} (h : ∀ v ∈ vals, v < 2 ^ 32) (rest : Bytes) (m : Mem)
    (bv : BitVector) :
    setNumBits vals.length (.full (vals.flatMap utilityMqttWriteUint32 ++ rest) m) bv =
      (vals.foldl utilityBitVectorSet bv, .full rest m) := by
  induction vals generalizing bv with
  | nil => rfl
  | cons v vals ih =>
    have hr := Dec.readUint32_write v (vals.flatMap utilityMqttWriteUint32 ++ rest) m (Stream'.const true)
    rw [Nat.mod_eq_of_lt (h v List.mem_cons_self)] at hr
    obtain ⟨hv, hd⟩ := Prod.mk.inj hr
    rw [List.length_cons, setNumBits, List.flatMap_cons, List.append_assoc, hv, hd,
      ih fun w hw => h w (List.mem_cons_of_mem _ hw)]
    rfl

/-- What a policy's entry does to the vector. -/
def loadBits (bv : Option BitVector) (p : ServerPolicy) : Option BitVector :=
  if p.BitBacked then bv.map (p.vals.foldl utilityBitVectorSet) else bv

theorem isSome_loadBits (bv : Option BitVector) (p : ServerPolicy) :
    (loadBits bv p).isSome = bv.isSome := by
  unfold loadBits
  split
  · rw [Option.isSome_map]
  · rfl

theorem type_length_lt {rodata : Rodata} {t : Bytes} {e : NgxDivConfEnum}
    (h : findPtype rodata t = some e) (hn : e.name = t) : t.length < 65535 := by
  have hmem : e ∈ ngxHttpDiversionConfPtypes := List.mem_reverse.1 (List.mem_of_find?_eq_some h)
  have hall : ∀ e ∈ ngxHttpDiversionConfPtypes, e.name.length < 65535 := by decide
  rw [← hn]
  exact hall e hmem

theorem readPolicyData_ranges {h : PolicyHead} {rs : List (Nat × Nat)} (hlen : h.datalen = rs.length)
    (hne : rs ≠ []) (hgood : ∀ r ∈ rs, GoodRange r) (rest : Bytes) (m : Mem)
    (bv : Option BitVector) :
    ∃ data : DataOf h, data.1 = .ranges (rs.map fun r => ⟨r.1, r.2⟩) ∧
      readPolicyData .range h (.full (rs.flatMap rangeBytes ++ rest) m, bv) =
        .ok (data, (.full rest m, bv)) := by
  obtain ⟨id, type, bitsetId, n⟩ := h
  simp only at hlen
  subst hlen
  have hpos : rs.length ≠ 0 := fun h0 => hne (List.length_eq_zero_iff.1 h0)
  refine ⟨⟨.ranges (rs.map fun r => ⟨r.1, r.2⟩), List.length_map _⟩, rfl, ?_⟩
  simp only [readPolicyData, hpos, if_false, Dec.slabAlloc_full, ok_bind, readRanges_good hgood]
  rfl

/-- An entry whose type is in the table and whose data is read. -/
theorem readPolicy_of_data {p : ServerPolicy} (hp : p.Fits) {rodata : Rodata} {e : NgxDivConfEnum}
    (he : findPtype rodata p.type = some e) (hname : e.name = p.type) {rest : Bytes} {m : Mem}
    {bv bv' : Option BitVector} {data : DataOf (headOf p)}
    (hd : readPolicyData e.stype (headOf p) (.full (rowBytes p ++ rest) m, bv) =
      .ok (data, (.full rest m, bv'))) :
    ∃ q : DiversionPolicy, q.id = p.id ∧ (confPtype q.type).name = p.type ∧ q.datalen = rowCount p ∧
      q.data = data.1 ∧
      readPolicy rodata (.full (policyBytes p ++ rest) m, bv) = .ok (q, (.full rest m, bv')) := by
  refine ⟨⟨e.value, rowCount p, p.id, p.bitsetid % 2 ^ 8, data.1, data.2⟩, rfl, ?_, rfl, rfl, ?_⟩
  · rw [confPtype_findPtype he, hname]
  · rw [readPolicy_full hp (type_length_lt he hname), he]
    simp only [hd, ok_bind]
    rfl

theorem numType_ne {t : Bytes} (h : t ∈ [ipset, aidsuffix, cidsuffix]) : t ∉ setTypes ∧ t ∉ rangeTypes := by
  have hall : ∀ t ∈ [ipset, aidsuffix, cidsuffix], t ∉ setTypes ∧ t ∉ rangeTypes := by decide
  exact hall t h

theorem bitBacked_ne {p : ServerPolicy} (h : p.BitBacked) : p.type ∉ setTypes ∧ p.type ∉ rangeTypes := by
  rw [h.1]
  exact numType_ne List.mem_cons_self

section Branches

variable {p : ServerPolicy} (hp : p.Fits) (rodata : Rodata) (rest : Bytes) (m : Mem) {bv : Option BitVector}
include hp

/-- A set: the numbers come later, and nothing follows the header. -/
theorem readPolicy_set (hset : p.type ∈ setTypes) :
    ∃ q, StoredPolicy p q ∧
      readPolicy rodata (.full (policyBytes p ++ rest) m, bv) = .ok (q, (.full rest m, loadBits bv p)) := by
  obtain ⟨e, he, hname, hst⟩ := findPtype_set rodata hset
  have hnb : ¬ p.BitBacked := fun hb => (bitBacked_ne hb).1 hset
  have hdata : ∃ data : DataOf (headOf p), (data.1 = .bitVector ∨ data.1 = .rbtree .init) ∧
      readPolicyData e.stype (headOf p) (.full (rowBytes p ++ rest) m, bv) =
        .ok (data, (.full rest m, bv)) := by
    rw [hst, (rows_set hset).2, List.nil_append]
    by_cases h1 : (headOf p).bitsetId = 1
    · exact ⟨⟨.bitVector, trivial⟩, Or.inl rfl, if_pos h1⟩
    · exact ⟨⟨.rbtree .init, trivial⟩, Or.inr rfl, if_neg h1⟩
  obtain ⟨data, hd, hread⟩ := hdata
  obtain ⟨q, hid, hty, -, hq, hok⟩ := readPolicy_of_data hp he hname hread
  refine ⟨q, ⟨hid, hty, ?_⟩, by rw [hok, loadBits, if_neg hnb]⟩
  rw [if_pos hset, hq]
  exact hd

theorem readPolicy_range (hrange : p.type ∈ rangeTypes) (ho : p.type ≠ oidrange) (hne : p.ranges ≠ [])
    (h1 : ∀ r ∈ p.ranges, 1 ≤ r.1 ∧ 1 ≤ r.2) :
    ∃ q, StoredPolicy p q ∧
      readPolicy rodata (.full (policyBytes p ++ rest) m, bv) = .ok (q, (.full rest m, loadBits bv p)) := by
  obtain ⟨e, he, hname, hst⟩ := findPtype_range rodata hrange ho
  have hset : p.type ∉ setTypes := by
    have hno : ∀ t ∈ rangeTypes, t ∉ setTypes := by decide
    exact hno _ hrange
  have hnb : ¬ p.BitBacked := fun hb => (bitBacked_ne hb).2 hrange
  obtain ⟨hcount, hbytes⟩ := rows_range hrange
  obtain ⟨data, hd, hread⟩ := readPolicyData_ranges (h := headOf p) hcount hne
    (fun r hr => ⟨h1 r hr, hp.ranges.2 r hr⟩) rest m bv
  rw [← hbytes, ← hst] at hread
  obtain ⟨q, hid, hty, -, hq, hok⟩ := readPolicy_of_data hp he hname hread
  refine ⟨q, ⟨hid, hty, ?_⟩, by rw [hok, loadBits, if_neg hnb]⟩
  rw [if_neg hset, if_pos hrange, hq]
  exact hd

/-- An `ipset` in the vector. -/
theorem readPolicy_bits (hb : p.BitBacked) (hv : p.vals = [] ∨ bv.isSome = true) :
    ∃ q, StoredPolicy p q ∧
      readPolicy rodata (.full (policyBytes p ++ rest) m, bv) = .ok (q, (.full rest m, loadBits bv p)) := by
  obtain ⟨hset, hrange⟩ := bitBacked_ne hb
  obtain ⟨hcount, hbytes⟩ := rows_nums hset hrange
  obtain ⟨e, he, hname, hst⟩ := findPtype_ipset rodata
  rw [← hb.1] at he hname
  have h1 : (headOf p).bitsetId = 1 := hb.2
  have hread : readPolicyData e.stype (headOf p) (.full (rowBytes p ++ rest) m, bv) =
      .ok (⟨.bitVector, trivial⟩, (.full rest m, loadBits bv p)) := by
    have hlen : (headOf p).datalen = p.vals.length := hcount
    rw [hst, loadBits, if_pos hb, hbytes]
    simp only [readPolicyData, h1, if_true, hlen]
    cases bv with
    | none =>
      have hnil : p.vals = [] := by simpa using hv
      simp [hnil]
    | some bv =>
      simp only [setNumBits_full hp.vals.2]
      rfl
  obtain ⟨q, hid, hty, -, hq, hok⟩ := readPolicy_of_data hp he hname hread
  refine ⟨q, ⟨hid, hty, ?_⟩, hok⟩
  rw [if_neg hset, if_neg hrange, if_pos hb, hq]

/-- A copied array; an `ipset` outside the vector falls through to the suffix case. -/
theorem readPolicy_nums (hb : ¬ p.BitBacked) (htype : p.type ∈ [ipset, aidsuffix, cidsuffix])
    (hne : p.vals ≠ []) :
    ∃ q, StoredPolicy p q ∧
      readPolicy rodata (.full (policyBytes p ++ rest) m, bv) = .ok (q, (.full rest m, loadBits bv p)) := by
  obtain ⟨hset, hrange⟩ := numType_ne htype
  obtain ⟨hcount, hbytes⟩ := rows_nums hset hrange
  obtain ⟨data, hd, hread⟩ := readNums_full (h := headOf p) hcount hne rest m bv
  rw [← hbytes] at hread
  have hread' : ∃ e, findPtype rodata p.type = some e ∧ e.name = p.type ∧
      readPolicyData e.stype (headOf p) (.full (rowBytes p ++ rest) m, bv) =
        .ok (data, (.full rest m, bv)) := by
    rcases List.mem_cons.1 htype with hip | hsuf
    · obtain ⟨e, he, hname, hst⟩ := findPtype_ipset rodata
      have h1 : ¬ (headOf p).bitsetId = 1 := fun h => hb ⟨hip, h⟩
      rw [← hip] at he hname
      refine ⟨e, he, hname, ?_⟩
      rw [hst]
      exact (if_neg h1).trans hread
    · obtain ⟨e, he, hname, hst⟩ := findPtype_suffix rodata hsuf
      refine ⟨e, he, hname, ?_⟩
      rw [hst]
      exact hread
  obtain ⟨e, he, hname, hread'⟩ := hread'
  obtain ⟨q, hid, hty, hlen, hq, hok⟩ := readPolicy_of_data hp he hname hread'
  refine ⟨q, ⟨hid, hty, ?_⟩, by rw [hok, loadBits, if_neg hb]⟩
  rw [if_neg hset, if_neg hrange, if_neg hb]
  refine ⟨hlen.trans hcount, _, hq.trans hd, ?_⟩
  exact arrayNums_write hp.vals.2 _

/-- **A faithful policy** is stored as it was sent, and its entry is consumed. -/
theorem readPolicy_faithful (hf : FaithfulPolicy bv.isSome p) :
    ∃ q, StoredPolicy p q ∧
      readPolicy rodata (.full (policyBytes p ++ rest) m, bv) = .ok (q, (.full rest m, loadBits bv p)) := by
  unfold FaithfulPolicy at hf
  by_cases hset : p.type ∈ setTypes
  · exact readPolicy_set hp rodata rest m hset
  rw [if_neg hset] at hf
  by_cases hrange : p.type ∈ rangeTypes
  · rw [if_pos hrange] at hf
    exact readPolicy_range hp rodata rest m hrange hf.1 hf.2.1 hf.2.2
  rw [if_neg hrange] at hf
  by_cases hb : p.BitBacked
  · rw [if_pos hb] at hf
    exact readPolicy_bits hp rodata rest m hb hf
  · rw [if_neg hb] at hf
    exact readPolicy_nums hp rodata rest m hb hf.1 hf.2

end Branches

/-- What is decoded has a type of the table. -/
theorem readPolicy_type_mem {rodata : Rodata} {s s' : PolicyDec} {q : DiversionPolicy}
    (h : readPolicy rodata s = .ok (q, s')) : confPtype q.type ∈ ngxHttpDiversionConfPtypes := by
  obtain ⟨⟨hd, d⟩, -, h⟩ := bind_eq_ok.1 h
  cases hf : findPtype rodata hd.type with
  | none => simp [hf] at h
  | some e =>
    simp only [hf] at h
    obtain ⟨⟨data, s1⟩, -, h⟩ := bind_eq_ok.1 h
    obtain ⟨rfl, -⟩ := Prod.mk.inj (Except.ok.inj h)
    rw [confPtype_findPtype hf]
    exact List.mem_reverse.1 (List.mem_of_find?_eq_some hf)

theorem table_names : ∀ e ∈ ngxHttpDiversionConfPtypes, e.name.length < 65535 ∧ e.name ≠ oidrange ∧
    (e.name ∈ setTypes ∨ e.name ∈ rangeTypes ∨ e.name = bitset ∨
      e.name ∈ [ipset, aidsuffix, cidsuffix]) := by decide

theorem readNums_zero {h : PolicyHead} (h0 : h.datalen = 0) (s : PolicyDec) :
    readNums h s = .error .error := if_pos h0

section Refused

variable {p : ServerPolicy} {rodata : Rodata} {e : NgxDivConfEnum} (he : findPtype rodata p.type = some e)
  {bv : Option BitVector} (rest : Bytes) (m : Mem) {r : DataOf (headOf p) × PolicyDec}
  (hr : readPolicyData e.stype (headOf p) (.full (rowBytes p ++ rest) m, bv) = .ok r)
include he hr

theorem range_of_data (hp : p.Fits) (hrange : p.type ∈ rangeTypes) (ho : p.type ≠ oidrange) :
    p.ranges ≠ [] ∧ ∀ r ∈ p.ranges, 1 ≤ r.1 ∧ 1 ≤ r.2 := by
  obtain ⟨e', he', -, hst⟩ := findPtype_range rodata hrange ho
  obtain rfl := Option.some.inj (he.symm.trans he')
  obtain ⟨hcount, hbytes⟩ := rows_range hrange
  have hcount : (headOf p).datalen = p.ranges.length := hcount
  rw [hst, hbytes] at hr
  simp only [readPolicyData] at hr
  split at hr
  · simp at hr
  · rename_i h0
    rw [Dec.slabAlloc_full, ok_bind] at hr
    obtain ⟨r', hr', -⟩ := bind_eq_ok.1 hr
    refine ⟨?_, one_le_of_readRanges hp.ranges.2 hcount hr'⟩
    intro hnil
    exact h0 (by rw [hcount, hnil]; rfl)

/-- Without the vector, a bit-backed `ipset` must be empty. -/
theorem bits_of_data (hb : p.BitBacked) : p.vals = [] ∨ bv.isSome = true := by
  obtain ⟨hset, hrange⟩ := bitBacked_ne hb
  have hcount : (headOf p).datalen = p.vals.length := (rows_nums hset hrange).1
  obtain ⟨e', he', -, hst⟩ := findPtype_ipset rodata
  rw [← hb.1] at he'
  obtain rfl := Option.some.inj (he.symm.trans he')
  have h1 : (headOf p).bitsetId = 1 := hb.2
  cases bv with
  | some bv => exact Or.inr rfl
  | none =>
    left
    by_contra hne
    have hpos : (headOf p).datalen ≠ 0 := by
      rw [hcount]
      exact fun h0 => hne (List.length_eq_zero_iff.1 h0)
    simp [hst, readPolicyData, h1, hpos] at hr

theorem nums_of_data (hb : ¬ p.BitBacked) (htype : p.type ∈ [ipset, aidsuffix, cidsuffix]) : p.vals ≠ [] := by
  obtain ⟨hset, hrange⟩ := numType_ne htype
  have hcount : (headOf p).datalen = p.vals.length := (rows_nums hset hrange).1
  intro hnil
  have h0 : (headOf p).datalen = 0 := by rw [hcount, hnil]; rfl
  rcases List.mem_cons.1 htype with hip | hsuf
  · obtain ⟨e', he', -, hst⟩ := findPtype_ipset rodata
    rw [← hip] at he'
    obtain rfl := Option.some.inj (he.symm.trans he')
    have h1 : ¬ (headOf p).bitsetId = 1 := fun h => hb ⟨hip, h⟩
    simp [hst, readPolicyData, h1, readNums_zero h0] at hr
  · obtain ⟨e', he', -, hst⟩ := findPtype_suffix rodata hsuf
    obtain rfl := Option.some.inj (he.symm.trans he')
    simp [hst, readPolicyData, readNums_zero h0] at hr

/-- Data that was read under a known type comes from a faithful policy. -/
theorem faithful_of_data (hp : p.Fits) (ho : p.type ≠ oidrange)
    (hty : p.type ∈ setTypes ∨ p.type ∈ rangeTypes ∨ p.type ∈ [ipset, aidsuffix, cidsuffix]) :
    FaithfulPolicy bv.isSome p := by
  unfold FaithfulPolicy
  split
  · trivial
  · rename_i hset
    split
    · rename_i hrange
      exact ⟨ho, range_of_data he rest m hr hp hrange ho⟩
    · rename_i hrange
      have hnum := (hty.resolve_left hset).resolve_left hrange
      split
      · rename_i hb
        exact bits_of_data he rest m hr hb
      · rename_i hb
        exact ⟨hnum, nums_of_data he rest m hr hb hnum⟩

end Refused

/-- **An unfaithful policy** is refused, or stored under another type. -/
theorem not_stored_of_unfaithful {p : ServerPolicy} (hp : p.Servable) {rodata : Rodata}
    {bv : Option BitVector} (hf : ¬ FaithfulPolicy bv.isSome p) {rest : Bytes} {m : Mem}
    {q : DiversionPolicy} {s' : PolicyDec}
    (h : readPolicy rodata (.full (policyBytes p ++ rest) m, bv) = .ok (q, s')) : ¬ StoredPolicy p q := by
  rintro ⟨-, hname, -⟩
  obtain ⟨hlen, ho, hty⟩ := table_names _ (readPolicy_type_mem h)
  rw [hname] at hlen ho hty
  have hty' : p.type ∈ setTypes ∨ p.type ∈ rangeTypes ∨ p.type ∈ [ipset, aidsuffix, cidsuffix] := by
    rcases hty with h | h | h | h
    · exact Or.inl h
    · exact Or.inr (Or.inl h)
    · exact absurd h hp.type.2
    · exact Or.inr (Or.inr h)
  rw [readPolicy_full hp.fits hlen] at h
  cases he : findPtype rodata p.type with
  | none => simp [he] at h
  | some e =>
    simp only [he] at h
    obtain ⟨r, hr, -⟩ := bind_eq_ok.1 h
    exact hf (faithful_of_data he rest m hr hp.fits ho hty')

/-! ## One group -/

section Groups

variable {policys : List DiversionPolicy} {g : ServerGroup} (rest : Bytes) (m : Mem)

theorem readRef_known {pid : Nat} (hlt : pid < 2 ^ 32) (h : pid ∈ policys.map DiversionPolicy.id) :
    ∃ k, (∃ q, policys[k]? = some q ∧ q.id = pid) ∧
      readRef policys (.full (utilityMqttWriteUint32 pid ++ rest) m) = .ok (k, .full rest m) := by
  obtain ⟨q, hq, hid⟩ := List.mem_map.1 h
  rw [readRef, Dec.readUint32_write, Nat.mod_eq_of_lt hlt]
  simp only
  cases hk : policys.findIdx? fun p => p.id == pid with
  | none =>
    rw [List.findIdx?_eq_none_iff] at hk
    exact absurd (hk q hq) (by simp [hid])
  | some k =>
    obtain ⟨hlen, hp, -⟩ := List.findIdx?_eq_some_iff_getElem.1 hk
    exact ⟨k, ⟨policys[k], List.getElem?_eq_getElem hlen, by simpa using hp⟩, rfl⟩

theorem readRef_unknown {pid : Nat} (hlt : pid < 2 ^ 32) (h : pid ∉ policys.map DiversionPolicy.id) :
    readRef policys (.full (utilityMqttWriteUint32 pid ++ rest) m) = .error .error := by
  rw [readRef, Dec.readUint32_write, Nat.mod_eq_of_lt hlt]
  have hk : policys.findIdx? (fun p => p.id == pid) = none := by
    rw [List.findIdx?_eq_none_iff]
    intro q hq
    have hne : q.id ≠ pid := fun hid => h (List.mem_map.2 ⟨q, hq, hid⟩)
    simpa using hne
  simp only [hk]

/-- With short strings, an action and 1 to 65535 references, everything is fixed but the
references. -/
theorem readGroup_eq (hs : g.uri.length < 65535 ∧ g.backend.length < 65535 ∧ (g.text.getD []).length < 65535)
    (ha : 1 ≤ g.action ∧ g.action ≤ 65535) (hn : g.pids ≠ [] ∧ g.pids.length ≤ 65535) :
    readGroup policys (.full (groupBytes g ++ rest) m) =
      (readRefs policys g.pids.length
        (.full (g.pids.flatMap utilityMqttWriteUint32 ++ rest) m)).map fun r =>
          (⟨.of g.uri, .of g.backend, .of (g.text.getD []), g.action, r.1⟩, r.2) := by
  have hact : g.action ≠ ngxUintxError := by unfold ngxUintxError; omega
  have hlen : g.pids.length ≠ ngxUintxError := fun h => hn.1 (List.length_eq_zero_iff.1 h)
  have hact16 : g.action % 2 ^ 16 = g.action := Nat.mod_eq_of_lt (by omega)
  have hlen16 : g.pids.length % 2 ^ 16 = g.pids.length := Nat.mod_eq_of_lt (by omega)
  rw [readGroup, groupBytes]
  simp only [List.append_assoc]
  rw [readString_utf8 hs.1, ok_bind]
  simp only [Dec.strdup_full, Dec.readUint16_write, hact16, hact, if_false]
  rw [readString_utf8 hs.2.1, ok_bind]
  simp only [Dec.strdup_full]
  rw [readString_utf8 hs.2.2, ok_bind]
  simp only [Dec.strdup_full, Dec.readUint16_write, hlen16, hlen, if_false, Dec.slabAlloc_full, ok_bind]
  cases readRefs policys g.pids.length
    (Dec.full (g.pids.flatMap utilityMqttWriteUint32 ++ rest) m) <;> rfl

theorem readGroup_faithful (hg : g.Servable) (hf : FaithfulGroup (policys.map DiversionPolicy.id) g) :
    ∃ h, StoredGroup policys g h ∧
      readGroup policys (.full (groupBytes g ++ rest) m) = .ok (h, .full rest m) := by
  have hgood : ∀ (_ : Unit) (pid : Nat) (rest : Bytes), True →
      pid < 2 ^ 32 ∧ pid ∈ policys.map DiversionPolicy.id →
      ∃ k, (∃ q, policys[k]? = some q ∧ q.id = pid) ∧
        readRef policys (.full (utilityMqttWriteUint32 pid ++ rest) m) = .ok (k, .full rest m) := by
    intro _ pid rest _ hp
    exact readRef_known rest m hp.1 hp.2
  obtain ⟨ks, hks, ht⟩ := times_encoded (S := fun (_ : Unit) bs => Dec.full bs m) (N := fun a _ => a)
    (I := fun _ => True) (fun _ _ h => h) hgood
    (fun pid hp => ⟨hg.pids.2 pid hp, hf.pids.2 pid hp⟩) (a := ()) trivial rest rfl
  refine ⟨⟨.of g.uri, .of g.backend, .of (g.text.getD []), g.action, ks.1⟩, ⟨rfl, rfl, rfl, rfl, hks⟩, ?_⟩
  rw [readGroup_eq rest m hf.strings ⟨hf.action, hg.action⟩ ⟨hg.pids.1, hf.pids.1⟩, readRefs, ht]
  rfl

/-- The strings and the action of a group that was read. -/
theorem readGroup_strings (hg : g.Servable) {r : DiversionPolicyGroup × Dec}
    (h : readGroup policys (.full (groupBytes g ++ rest) m) = .ok r) :
    (g.uri.length < 65535 ∧ g.backend.length < 65535 ∧ (g.text.getD []).length < 65535) ∧
      1 ≤ g.action := by
  rw [readGroup, groupBytes] at h
  simp only [List.append_assoc] at h
  by_cases hu : g.uri.length < 65535
  · rw [readString_utf8 hu, ok_bind] at h
    have hact16 : g.action % 2 ^ 16 = g.action := Nat.mod_eq_of_lt (by have := hg.action; omega)
    simp only [Dec.strdup_full, Dec.readUint16_write, hact16] at h
    split at h
    · simp at h
    · rename_i hact
      by_cases hb : g.backend.length < 65535
      · rw [readString_utf8 hb, ok_bind] at h
        simp only [Dec.strdup_full] at h
        by_cases ht : (g.text.getD []).length < 65535
        · exact ⟨⟨hu, hb, ht⟩, Nat.pos_of_ne_zero hact⟩
        · rw [readString_utf8_max (by have := hg.strings.2.2; omega)] at h
          simp at h
      · rw [readString_utf8_max (by have := hg.strings.2.1; omega)] at h
        simp at h
  · rw [readString_utf8_max (by have := hg.strings.1; omega)] at h
    simp at h

theorem not_stored_group_of_unfaithful (hg : g.Servable)
    (hf : ¬ FaithfulGroup (policys.map DiversionPolicy.id) g) {h : DiversionPolicyGroup} {d : Dec}
    (he : readGroup policys (.full (groupBytes g ++ rest) m) = .ok (h, d)) : ¬ StoredGroup policys g h := by
  rintro ⟨-, -, -, -, hrefs⟩
  have hn : g.pids.length ≤ 65535 := by
    rw [hrefs.length_eq]
    exact (readGroup_ok he).2.1
  obtain ⟨hstr, hact⟩ := readGroup_strings rest m hg he
  rw [readGroup_eq rest m hstr ⟨hact, hg.action⟩ ⟨hg.pids.1, hn⟩, readRefs] at he
  cases ht : times (readRef policys) g.pids.length
      (Dec.full (g.pids.flatMap utilityMqttWriteUint32 ++ rest) m) with
  | error e => simp [ht, Except.map] at he
  | ok r =>
    have hgood : ∀ (_ : Unit) (pid : Nat) (rest : Bytes), True →
        pid < 2 ^ 32 ∧ pid ∈ policys.map DiversionPolicy.id →
        ∃ k, True ∧ readRef policys (.full (utilityMqttWriteUint32 pid ++ rest) m) = .ok (k, .full rest m) := by
      intro _ pid rest _ hp
      obtain ⟨k, -, hk⟩ := readRef_known rest m hp.1 hp.2
      exact ⟨k, trivial, hk⟩
    have hall := forall_of_times_rel (S := fun (_ : Unit) bs => Dec.full bs m) (N := fun a _ => a)
      (I := fun _ => True) (a := ()) (R := fun _ _ => True) (fun _ _ h => h) hgood ?_ trivial ht
      (List.forall₂_iff_zip.2 ⟨r.1.2.symm, fun _ => trivial⟩)
    · exact hf ⟨hstr, hact, hn, fun pid hp => (hall pid hp).2⟩
    · intro _ pid hpid rest y s' _ hbad hy
      have hno : pid ∉ policys.map DiversionPolicy.id := fun hmem => hbad ⟨hg.pids.2 pid hpid, hmem⟩
      rw [readRef_unknown rest m (hg.pids.2 pid hpid) hno] at hy
      simp at hy

end Groups

/-! ## The vector -/

theorem size_foldl_set (vals : List Nat) (bv : BitVector) :
    (vals.foldl utilityBitVectorSet bv).size = bv.size := by
  induction vals generalizing bv with
  | nil => rfl
  | cons v vals ih => rw [List.foldl_cons, ih, size_bitVectorSet]

theorem get_foldl_set {vals : List Nat} (hv : ∀ v ∈ vals, v < 2 ^ 32) {bv : BitVector} (hc : bv.Covers32)
    {v : Nat} (hlt : v < 2 ^ 32) :
    utilityBitVectorGet (vals.foldl utilityBitVectorSet bv) v = true ↔
      utilityBitVectorGet bv v = true ∨ v ∈ vals := by
  induction vals generalizing bv with
  | nil => simp
  | cons w vals ih =>
    have hw := hv w List.mem_cons_self
    have hc' : (utilityBitVectorSet bv w).Covers32 := by
      unfold BitVector.Covers32 at hc ⊢
      rwa [size_bitVectorSet]
    rw [List.foldl_cons, ih (fun u hu => hv u (List.mem_cons_of_mem _ hu)) hc',
      bitVectorGet_set (le_of_lt (Covers32.div_lt hc hw)) (le_of_lt (Covers32.div_lt hc hlt)),
      List.mem_cons]
    tauto

/-- Set the bits of a bit-backed policy. -/
def loadVals (bv : BitVector) (p : ServerPolicy) : BitVector :=
  if p.BitBacked then p.vals.foldl utilityBitVectorSet bv else bv

theorem foldl_loadBits (ps : List ServerPolicy) (old : Option BitVector) :
    ps.foldl loadBits old = old.map (ps.foldl loadVals) := by
  induction ps generalizing old with
  | nil => simp
  | cons p ps ih =>
    have hp : loadBits old p = old.map fun bv => loadVals bv p := by
      unfold loadBits loadVals
      split
      · rfl
      · simp
    rw [List.foldl_cons, ih, hp, Option.map_map]
    rfl

theorem get_foldl_loadVals {ps : List ServerPolicy} (hps : ∀ p ∈ ps, p.Servable) {bv : BitVector}
    (hc : bv.Covers32) {v : Nat} (hlt : v < 2 ^ 32) :
    utilityBitVectorGet (ps.foldl loadVals bv) v = true ↔
      utilityBitVectorGet bv v = true ∨ ∃ p ∈ ps, p.BitBacked ∧ v ∈ p.vals := by
  induction ps generalizing bv with
  | nil => simp
  | cons p ps ih =>
    have hp := hps p List.mem_cons_self
    have ih := @ih fun q hq => hps q (List.mem_cons_of_mem _ hq)
    rw [List.foldl_cons, loadVals]
    by_cases hb : p.BitBacked
    · have hc' : (p.vals.foldl utilityBitVectorSet bv).Covers32 := by
        unfold BitVector.Covers32 at hc ⊢
        rwa [size_foldl_set]
      rw [if_pos hb, ih hc', get_foldl_set hp.vals.2 hc hlt]
      simp [hb, or_assoc]
    · rw [if_neg hb, ih hc]
      simp [hb]

theorem storedBits_loadBits {s : Shm} {cfg : ServerConfig} (h : Servable s cfg) :
    StoredBits cfg s.globalBitvector1 (cfg.policys.foldl loadBits s.globalBitvector1) := by
  rw [foldl_loadBits]
  cases hbv : s.globalBitvector1 with
  | none => trivial
  | some bv =>
    intro v hlt
    exact get_foldl_loadVals h.policys.2 (h.vector bv hbv) hlt

/-! ## The message -/

theorem map_id_of_stored {ps : List ServerPolicy} {qs : List DiversionPolicy}
    (h : List.Forall₂ StoredPolicy ps qs) : qs.map DiversionPolicy.id = ps.map ServerPolicy.id := by
  induction h with
  | nil => rfl
  | cons hp _ ih => rw [List.map_cons, List.map_cons, ih, hp.1]

/-- A table is read when the policies and then the groups are. -/
theorem readTable_eq_ok {rodata : Rodata} {len : Nat} {bs : Bytes} {m : Mem} {bv : Option BitVector}
    {t : PolicyTable} :
    readTable rodata len (.full bs m, bv) = .ok t ↔
      ∃ ps s gs, times (readPolicy rodata) len (.full bs m, bv) = .ok (ps, s) ∧
        readGroups ps.1 s.1 = .ok gs ∧ t = ⟨ps.1, gs, s.2⟩ := by
  rw [readTable]
  simp only [Dec.slabAlloc_full, ok_bind, bind_eq_ok]
  constructor
  · rintro ⟨⟨ps, s⟩, hp, gs, hg, ht⟩
    exact ⟨ps, s, gs, hp, hg, (Except.ok.inj ht).symm⟩
  · rintro ⟨ps, s, gs, hp, hg, rfl⟩
    exact ⟨(ps, s), hp, gs, hg, rfl⟩

theorem readGroups_eq_ok {policys : List DiversionPolicy} {n k : Nat} (hk : n % 2 ^ 16 = k) {bs : Bytes}
    {m : Mem} {gs : List DiversionPolicyGroup} :
    readGroups policys (.full (utilityMqttWriteUint16 n ++ bs) m) = .ok gs ↔
      k ≠ 0 ∧ ∃ r, times (readGroup policys) k (.full bs m) = .ok r ∧ gs = r.1.1 := by
  rw [readGroups, Dec.readUint16_write, hk]
  by_cases h0 : k = 0
  · simp [h0, ngxUintxError]
  · simp only [ngxUintxError, h0, if_false, Dec.slabAlloc_full, ok_bind, bind_eq_ok, ne_eq,
      not_false_eq_true, true_and]
    constructor
    · rintro ⟨r, hr, hgs⟩
      exact ⟨r, hr, (Except.ok.inj hgs).symm⟩
    · rintro ⟨r, hr, rfl⟩
      exact ⟨r, hr, rfl⟩

theorem diversionDecodePolicy_eq_ok {rodata : Rodata} {s s' : Shm} (hg : s.policyGroup = []) {n k : Nat}
    (hk : n % 2 ^ 16 = k) {bs : Bytes} {m : Mem} :
    diversionDecodePolicy rodata s (.full (utilityMqttWriteUint16 n ++ bs) m) s.version = (.ok, s') ↔
      k ≠ 0 ∧ ∃ t, readTable rodata k (.full bs m, s.globalBitvector1) = .ok t ∧
        s' = { s with
          policys := t.policys
          policyGroup := t.policyGroup
          globalBitvector1 := t.globalBitvector1 } := by
  have hgate : ¬ (s.version ≠ s.version ∨ s.policyGroup ≠ []) := by simp [hg]
  rw [diversionDecodePolicy, if_neg hgate, Dec.readUint16_write, hk]
  by_cases h0 : k = 0
  · simp [h0, ngxUintxError]
  · simp only [ngxUintxError, h0, if_false, ne_eq, not_false_eq_true, true_and]
    cases readTable rodata k (Dec.full bs m, s.globalBitvector1) with
    | ok t => simp [eq_comm]
    | error e => cases e <;> simp

/-- The message behind the number of policies. -/
def tableBytes (cfg : ServerConfig) : Bytes :=
  cfg.policys.flatMap policyBytes ++
    (utilityMqttWriteUint16 cfg.groups.length ++ cfg.groups.flatMap groupBytes)

/-- The round trip as the two loops: the policies, and the groups over them. -/
theorem policyRoundTrip_iff_loops {s : Shm} {cfg : ServerConfig} (h : Servable s cfg) (rodata : Rodata)
    (after : Mem) :
    PolicyRoundTrip rodata s cfg after ↔
      cfg.policys.length ≤ 65535 ∧ ∃ ps s' gs,
        times (readPolicy rodata) cfg.policys.length (.full (tableBytes cfg) after, s.globalBitvector1) =
          .ok (ps, s') ∧ readGroups ps.1 s'.1 = .ok gs ∧ List.Forall₂ StoredPolicy cfg.policys ps.1 ∧
        List.Forall₂ (StoredGroup ps.1) cfg.groups gs ∧ StoredBits cfg s.globalBitvector1 s'.2 := by
  have hpos : cfg.policys.length ≠ 0 := fun h0 => h.policys.1 (List.length_eq_zero_iff.1 h0)
  unfold PolicyRoundTrip
  rw [getPolicy_ok h]
  constructor
  · rintro ⟨buf, s', hbuf, hd, hps, hgs, hbits⟩
    obtain rfl := Except.ok.inj hbuf
    -- the count sent is the count read, because every policy was stored
    obtain ⟨k, hk⟩ : ∃ k, cfg.policys.length % 2 ^ 16 = k := ⟨_, rfl⟩
    obtain ⟨-, t, ht, rfl⟩ := (diversionDecodePolicy_eq_ok h.table hk).1 hd
    obtain ⟨ps, s1, gs, hp, hg, rfl⟩ := readTable_eq_ok.1 ht
    obtain rfl : cfg.policys.length = k := hps.length_eq.trans ps.2
    exact ⟨by omega, ps, s1, gs, hp, hg, hps, hgs, hbits⟩
  · rintro ⟨hn, ps, s1, gs, hp, hg, hps, hgs, hbits⟩
    have hmod : cfg.policys.length % 2 ^ 16 = cfg.policys.length := Nat.mod_eq_of_lt (by omega)
    have ht := readTable_eq_ok.2 ⟨ps, s1, gs, hp, hg, rfl⟩
    have hd := (diversionDecodePolicy_eq_ok h.table hmod).2 ⟨hpos, _, ht, rfl⟩
    exact ⟨_, _, rfl, hd, hps, hgs, hbits⟩

section Loops

variable (rodata : Rodata) (after : Mem)

/-- A policy the loop reads back. -/
def GoodPolicy (hasVector : Bool) (p : ServerPolicy) : Prop := p.Fits ∧ FaithfulPolicy hasVector p

/-- A group the loop reads back over policies with the ids `ids`. -/
def GoodGroup (ids : List Nat) (g : ServerGroup) : Prop := g.Servable ∧ FaithfulGroup ids g

theorem readPolicy_good {hasVector : Bool} (bv : Option BitVector) (p : ServerPolicy) (rest : Bytes)
    (hbv : bv.isSome = hasVector) (hp : GoodPolicy hasVector p) :
    ∃ q, StoredPolicy p q ∧ readPolicy rodata (.full (policyBytes p ++ rest) after, bv) =
      .ok (q, (.full rest after, loadBits bv p)) := by
  subst hbv
  exact readPolicy_faithful hp.1 rodata rest after hp.2

theorem readGroup_good {qs : List DiversionPolicy} (_ : Unit) (g : ServerGroup) (rest : Bytes) (_ : True)
    (hg : GoodGroup (qs.map DiversionPolicy.id) g) :
    ∃ k, StoredGroup qs g k ∧
      readGroup qs (.full (groupBytes g ++ rest) after) = .ok (k, .full rest after) :=
  readGroup_faithful rest after hg.1 hg.2

/-- Good policies are stored one by one, and the bits of the vector with them. -/
theorem readPolicys_good {ps : List ServerPolicy} {bv : Option BitVector}
    (h : ∀ p ∈ ps, GoodPolicy bv.isSome p) (rest : Bytes) :
    ∃ qs : {qs : List DiversionPolicy // qs.length = ps.length}, List.Forall₂ StoredPolicy ps qs.1 ∧
      times (readPolicy rodata) ps.length (.full (ps.flatMap policyBytes ++ rest) after, bv) =
        .ok (qs, (.full rest after, ps.foldl loadBits bv)) :=
  times_encoded (S := fun bv bs => (Dec.full bs after, bv)) (N := loadBits)
    (I := fun bv' => bv'.isSome = bv.isSome) (fun bv' p hbv => (isSome_loadBits bv' p).trans hbv)
    (readPolicy_good rodata after) h rfl rest rfl

/-- Good groups are stored one by one. -/
theorem readGroups_good {qs : List DiversionPolicy} {gs : List ServerGroup} (hne : gs ≠ [])
    (hn : gs.length ≤ 65535) (h : ∀ g ∈ gs, GoodGroup (qs.map DiversionPolicy.id) g) (rest : Bytes) :
    ∃ ks, List.Forall₂ (StoredGroup qs) gs ks ∧
      readGroups qs (.full (utilityMqttWriteUint16 gs.length ++ (gs.flatMap groupBytes ++ rest)) after) =
        .ok ks := by
  have hpos : gs.length ≠ 0 := fun h0 => hne (List.length_eq_zero_iff.1 h0)
  have hmod : gs.length % 2 ^ 16 = gs.length := Nat.mod_eq_of_lt (by omega)
  obtain ⟨ks, hstored, hr⟩ := times_encoded (S := fun (_ : Unit) bs => Dec.full bs after)
    (N := fun a _ => a) (I := fun _ => True) (fun _ _ h => h) (readGroup_good after) h (a := ())
    trivial rest rfl
  exact ⟨ks.1, hstored, (readGroups_eq_ok hmod).2 ⟨hpos, _, hr, rfl⟩⟩

theorem faithful_of_readPolicys {ps : List ServerPolicy} (h : ∀ p ∈ ps, p.Servable)
    {bv : Option BitVector} {rest : Bytes}
    {r : {qs : List DiversionPolicy // qs.length = ps.length} × PolicyDec}
    (hr : times (readPolicy rodata) ps.length (.full (ps.flatMap policyBytes ++ rest) after, bv) = .ok r)
    (hst : List.Forall₂ StoredPolicy ps r.1.1) : ∀ p ∈ ps, GoodPolicy bv.isSome p := by
  refine forall_of_times_rel (S := fun bv bs => (Dec.full bs after, bv)) (N := loadBits)
    (I := fun bv' => bv'.isSome = bv.isSome) (fun bv' p hbv => (isSome_loadBits bv' p).trans hbv)
    (readPolicy_good rodata after) ?_ rfl hr hst
  intro bv' p hp rest q s' hbv hbad hq
  refine not_stored_of_unfaithful (h p hp) ?_ hq
  intro hf
  rw [hbv] at hf
  exact hbad ⟨(h p hp).fits, hf⟩

theorem faithful_of_readGroups {qs : List DiversionPolicy} {gs : List ServerGroup}
    (h : ∀ g ∈ gs, g.Servable) {ks : List DiversionPolicyGroup} {rest : Bytes}
    (hks : readGroups qs (.full (utilityMqttWriteUint16 gs.length ++ (gs.flatMap groupBytes ++ rest)) after) =
      .ok ks) (hst : List.Forall₂ (StoredGroup qs) gs ks) :
    gs.length ≤ 65535 ∧ ∀ g ∈ gs, GoodGroup (qs.map DiversionPolicy.id) g := by
  obtain ⟨k, hk⟩ : ∃ k, gs.length % 2 ^ 16 = k := ⟨_, rfl⟩
  obtain ⟨-, r, hr, rfl⟩ := (readGroups_eq_ok hk).1 hks
  obtain rfl : gs.length = k := hst.length_eq.trans r.1.2
  refine ⟨by omega, ?_⟩
  refine forall_of_times_rel (S := fun (_ : Unit) bs => Dec.full bs after) (N := fun a _ => a)
    (I := fun _ => True) (a := ()) (fun _ _ h => h) (readGroup_good after) ?_ trivial hr hst
  intro _ g hg rest k s' _ hbad hk
  exact not_stored_group_of_unfaithful rest after (h g hg) (fun hf => hbad ⟨h g hg, hf⟩) hk

end Loops

/-- **The policy message** is taken back exactly where the configuration is faithful. -/
theorem policy_roundtrip_iff {s : Shm} {cfg : ServerConfig} (h : Servable s cfg) (rodata : Rodata)
    (after : Mem) :
    PolicyRoundTrip rodata s cfg after ↔ Faithful s.globalBitvector1.isSome cfg := by
  rw [policyRoundTrip_iff_loops h]
  unfold tableBytes
  rw [← List.append_nil (cfg.groups.flatMap groupBytes)]
  constructor
  · rintro ⟨hn, ps, s1, gs, hp, hg, hps, hgs, -⟩
    have hpol := faithful_of_readPolicys rodata after h.policys.2 hp hps
    -- the policies' loop ends in front of the groups
    obtain ⟨ps', -, hp'⟩ := readPolicys_good rodata after hpol
      (utilityMqttWriteUint16 cfg.groups.length ++ (cfg.groups.flatMap groupBytes ++ []))
    rw [hp'] at hp
    obtain ⟨rfl, rfl⟩ := Prod.mk.inj (Except.ok.inj hp)
    obtain ⟨hgn, hgrp⟩ := faithful_of_readGroups after h.groups.2 hg hgs
    rw [map_id_of_stored hps] at hgrp
    exact ⟨⟨hn, hgn⟩, fun p hp => (hpol p hp).2, fun g hg => (hgrp g hg).2⟩
  · rintro ⟨⟨hn, hgn⟩, hpol, hgrp⟩
    obtain ⟨ps, hps, hp⟩ := readPolicys_good rodata after
      (fun p hp => ⟨(h.policys.2 p hp).fits, hpol p hp⟩)
      (utilityMqttWriteUint16 cfg.groups.length ++ (cfg.groups.flatMap groupBytes ++ []))
    rw [← map_id_of_stored hps] at hgrp
    obtain ⟨gs, hgs, hg⟩ := readGroups_good after h.groups.1 hgn
      (fun g hg => ⟨h.groups.2 g hg, hgrp g hg⟩) []
    exact ⟨hn, ps, _, gs, hp, hg, hps, hgs, storedBits_loadBits h⟩

/-- An ip range and an aid suffix, in one group with the action `action`. -/
def rangeAndSuffix (action : Nat) : ServerConfig where
  policys := [⟨7, iprange, 0, [(1, 9)], []⟩, ⟨8, aidsuffix, 0, [], [3]⟩]
  groups := [⟨ascii ['/', 'a'], action, ascii ['u', 'p'], some [], [8, 7]⟩]

theorem servable_rangeAndSuffix {action : Nat} (h : action ≤ 65535) :
    Servable (initialState false) (rangeAndSuffix action) := by
  refine ⟨rfl, ?_, ⟨by simp [rangeAndSuffix], ?_⟩, ⟨by simp [rangeAndSuffix], ?_⟩⟩
  · intro bv hbv
    simp [initialState, ngxHttpLuaDiversionInitSysconfZone] at hbv
  · intro p hp
    simp only [rangeAndSuffix, List.mem_cons, List.not_mem_nil, or_false] at hp
    rcases hp with rfl | rfl
    · exact ⟨by decide, by decide, by decide, by decide⟩
    · exact ⟨by decide, by decide, by decide, by decide⟩
  · intro g hg
    obtain rfl := List.mem_singleton.1 hg
    exact ⟨by simp [ascii], h, by simp⟩

theorem policy_roundtrip_redirect :
    PolicyRoundTrip (fun _ => Stream'.const 0) (initialState false) (rangeAndSuffix 1)
      (Stream'.const 0) := by
  refine (policy_roundtrip_iff (servable_rangeAndSuffix (by decide)) _ _).2 ⟨by decide, ?_, ?_⟩
  · intro p hp
    simp only [rangeAndSuffix, List.mem_cons, List.not_mem_nil, or_false] at hp
    rcases hp with rfl | rfl <;> decide
  · intro g hg
    obtain rfl := List.mem_singleton.1 hg
    exact ⟨by decide, by decide, by decide⟩

/-- Action 0, the documented `upstream`, is refused as `NGX_UINTX_ERROR`. -/
theorem policy_roundtrip_upstream :
    Servable (initialState false) (rangeAndSuffix 0) ∧
    ¬ PolicyRoundTrip (fun _ => Stream'.const 0) (initialState false) (rangeAndSuffix 0)
      (Stream'.const 0) := by
  have hs := servable_rangeAndSuffix (Nat.zero_le 65535)
  refine ⟨hs, ?_⟩
  rintro ⟨buf, s', hbuf, hd, -⟩
  obtain rfl := Except.ok.inj ((getPolicy_ok hs).symm.trans hbuf)
  have hrc := congrArg Prod.fst hd
  simp only at hrc
  clear hd
  revert hrc
  decide +kernel

end NgxPlus.Diversion
