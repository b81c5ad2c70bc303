import NgxPlus.MqttProtocol
import NgxPlus.Rbtree

/-!
# Data model of the diversion module (`ngx_lua_diversion_module.h`, `.cpp:24-65`)

| here | there |
| --- | --- |
| `DivStoreType`, `NgxDivConfEnum`  | `div_store_type_enum_t`, `ngx_div_conf_enum_t` (`.cpp:25-51`) |
| `ngxHttpDiversionConfPtypes`      | the policy type table (`.cpp:53-65`) |
| `DiversionPolicy`, `DiversionPolicyGroup` | `diversion_policy_t`, `diversion_policy_group_t` (`.h:19-34`) |
| `Shm`                             | `diversion_runtime_info_t` (`.h:54-69`) with the two things it reaches through pointers: the policy array in `pgshpool` and `global_bitvector_1` |
| `freeDiversionEnvhosts`, `freeDiversionPolicy` | `.cpp:1211-1222` |

`void *data` of a policy is a union whose tag is the store type of the policy's type
together with `bitsetId`; `PolicyData` makes the tag explicit. `policys` of a group is an
array of pointers into one shared policy array, so it is a list of indices here and a
policy referenced by two groups is one policy.

A stored string is a length and a pointer (`NgxStr`): `ngx_shmpool_strdup` may return
NULL and no caller checks it.
-/

namespace NgxPlus.Diversion

open ByteMem Rbtree

/-- Return codes; `segv` is a NULL dereference, which ends the process. -/
inductive Rc
  | ok
  | error
  | declined
  | segv
deriving DecidableEq, Repr

/-! ## Policy types -/

inductive DivStoreType
  | none
  | range
  | bitSet
  | numSet
  | rbtree
  | suffix
  | reserved
deriving DecidableEq, Repr

structure NgxDivConfEnum where
  name : Bytes
  /-- Index in the table. -/
  value : Nat
  /-- Index of the user value the type looks at. -/
  cvalue : Nat
  stype : DivStoreType
deriving DecidableEq, Repr

def ascii (cs : List Char) : Bytes := cs.map fun c => UInt8.ofNat c.toNat

def ngxHttpDiversionConfPtypes : List NgxDivConfEnum :=
  [⟨ascii ['i', 'p', 's', 'e', 't'], 0, 0, .numSet⟩,
   ⟨ascii ['i', 'p', 'r', 'a', 'n', 'g', 'e'], 1, 0, .range⟩,
   ⟨ascii ['b', 'i', 't', 's', 'e', 't'], 2, 0, .bitSet⟩,
   ⟨ascii ['a', 'i', 'd', 's', 'e', 't'], 3, 1, .rbtree⟩,
   ⟨ascii ['a', 'i', 'd', 'r', 'a', 'n', 'g', 'e'], 4, 1, .range⟩,
   ⟨ascii ['a', 'i', 'd', 's', 'u', 'f', 'f', 'i', 'x'], 5, 1, .suffix⟩,
   ⟨ascii ['c', 'i', 'd', 's', 'e', 't'], 6, 2, .rbtree⟩,
   ⟨ascii ['c', 'i', 'd', 'r', 'a', 'n', 'g', 'e'], 7, 2, .range⟩,
   ⟨ascii ['c', 'i', 'd', 's', 'u', 'f', 'f', 'i', 'x'], 8, 2, .suffix⟩,
   ⟨ascii ['o', 'i', 'd', 's', 'e', 't'], 9, 3, .rbtree⟩]

/-- `&ngx_http_diversion_conf_ptypes[type]`. -/
def confPtype (type : Nat) : NgxDivConfEnum :=
  ngxHttpDiversionConfPtypes.getD type ⟨[], 0, 0, .none⟩

/-! ## Stored data -/

/-- `ngx_str_t` in shared memory; `none` is a NULL pointer. -/
structure NgxStr where
  len : Nat
  data : Option Bytes
deriving DecidableEq, Repr

def NgxStr.of (b : Bytes) : NgxStr := ⟨b.length, some b⟩

/-- The bytes a `memcmp` over the whole string reads; `none` if it reads through NULL. -/
def NgxStr.deref (s : NgxStr) : Option Bytes := if s.len = 0 then some [] else s.data

@[simp] theorem deref_of (b : Bytes) : (NgxStr.of b).deref = some b := by
  cases b <;> simp [NgxStr.of, NgxStr.deref]

structure DiversionPolicyRange where
  start : Nat
  end_ : Nat
deriving DecidableEq, Repr

inductive PolicyData
  | null
  | ranges (rs : List DiversionPolicyRange)
  /-- `(void *)global_bitvector_1`. -/
  | bitVector
  | rbtree (t : NgxRbtree Nat)
  /-- Big-endian 32-bit numbers as they came in. -/
  | nums (b : Bytes)

/-- The array behind `data` has `datalen` elements. -/
def PolicyData.Fits : PolicyData → Nat → Prop
  | .ranges rs, n => rs.length = n
  | .nums b, n => b.length = 4 * n
  | _, _ => True

structure DiversionPolicy where
  type : Nat
  datalen : Nat
  id : Nat
  /-- 0: none, 1: bitset1, 2: bitset2 -/
  bitsetId : Nat
  data : PolicyData
  fits : data.Fits datalen

/-- A policy as `ngx_memzero` leaves it. -/
instance : Inhabited DiversionPolicy := ⟨⟨0, 0, 0, 0, .null, trivial⟩⟩

structure DiversionPolicyGroup where
  uri : NgxStr
  backend : NgxStr
  text : NgxStr
  action : Nat
  /-- Indices into the policy array. -/
  policys : List Nat
deriving DecidableEq, Repr

structure DiversionEnvHost where
  key : Bytes
  value : Bytes
deriving DecidableEq, Repr

structure Shm where
  id : Nat
  /-- -1:none, 0:init -> none, 1:svc -> sysnc, 2:self -> active, 3:svc -> cancel -/
  status : Int
  version : Nat
  src : NgxStr
  to_ : NgxStr
  envhosts : List DiversionEnvHost
  policyGroup : List DiversionPolicyGroup
  /-- `ngx_atomic_t`: the number of readers. -/
  lock : UInt64
  /-- The policy array the groups point into. -/
  policys : List DiversionPolicy
  /-- `global_bitvector_1`; `none` unless `diversion_bitset_shm` is configured. -/
  globalBitvector1 : Option BitVector

/-- `ngx_http_lua_diversion_init_bitset_zone` on the memory of a fresh zone. -/
def ngxHttpLuaDiversionInitBitsetZone (mem : Nat → UInt8) : BitVector :=
  utilityBitVectorInit mem uintMax

/-- `ngx_http_lua_diversion_init_sysconf_zone` without `data`, i.e. not on reload
(`.cpp:291-321`). -/
def ngxHttpLuaDiversionInitSysconfZone (bitset : Option BitVector) : Shm where
  id := 0
  status := -1
  version := 0
  src := ⟨0, none⟩
  to_ := ⟨0, none⟩
  envhosts := []
  policyGroup := []
  lock := 0
  policys := []
  globalBitvector1 := bitset

theorem covers32_initBitsetZone (mem : Nat → UInt8) :
    (ngxHttpLuaDiversionInitBitsetZone mem).Covers32 := by
  show 2 ^ 29 ≤ if uintMax = 0 then (uintMax >>> 3) + 1 else (uintMax >>> 3) + 1
  decide

/-- `pg->policys[j]`. -/
def Shm.policyAt (s : Shm) (k : Nat) : DiversionPolicy := s.policys.getD k default

def Shm.groupPolicys (s : Shm) (g : DiversionPolicyGroup) : List DiversionPolicy :=
  g.policys.map s.policyAt

/-- `(bit_vector_t *)policy->data`. -/
def Shm.bitVectorOf (s : Shm) (p : DiversionPolicy) : Option BitVector :=
  match p.data with
  | .bitVector => s.globalBitvector1
  | _ => none

/-! ## Freeing -/

/-- `ngx_slab_init` on the hosts' pool. `src` and `to_` live in the same pool and keep
their pointers. -/
def freeDiversionEnvhosts (s : Shm) : Shm := { s with envhosts := [] }

def freeDiversionPolicy (s : Shm) : Shm :=
  { s with
    policyGroup := []
    policys := []
    globalBitvector1 := s.globalBitvector1.map utilityBitVectorClear }

end NgxPlus.Diversion
