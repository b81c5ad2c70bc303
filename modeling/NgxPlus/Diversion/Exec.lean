import NgxPlus.Lib.BinSearch
import NgxPlus.Diversion.Types

/-!
# Policy evaluation: `diversion_exec_policy` (`ngx_lua_diversion_module.cpp:1734-2061`)

| here | there |
| --- | --- |
| `DivUserInfo`           | `ngx_div_user_info_t` (`.cpp:40-44`); `reqVal` is `req_val[]` |
| `diversionProcResult`   | `diversion_proc_result` (`.cpp:1734-1762`) |
| `findNum32`, `findRange`| `find_num32`, `find_range` (`.cpp:1764-1814`) |
| `suffixMul`, `endsWith`, `suffixLoop` | the `ST_SUFFIX` case (`.cpp:1973-2001`) |
| `policyVerdict`         | the `switch (conf_ptype->stype)` of the inner loop (`.cpp:1880-2008`) |
| `execPolicys`, `execGroups` | the two loops (`.cpp:1859-2019`) |
| `diversionExecPolicy`   | `diversion_exec_policy` (`.cpp:1816-2024`) |

The `switch` leaves the inner loop body in five ways: `pass` set, `pass` clear (`break`
out of the policies), `continue` with `pass` clear (a NULL bit vector), `return
NGX_ERROR` (`default:`), and not at all (the suffix multiplier of a number of ten digits
may never exceed it, because `x` is 32 bits wide). `Verdict` has one constructor each.
The contract of the engine is in `FirstMatch`.
-/

namespace NgxPlus.Diversion

open ByteMem Rbtree

/-! ## Evaluation -/

structure DivUserInfo where
  uri : Bytes
  ip : Nat
  aid : Nat
  cid : Nat
  oid : Nat
deriving DecidableEq, Repr

/-- `userInfo->req_val[i]`. -/
def DivUserInfo.reqVal (u : DivUserInfo) : Nat → Nat
  | 0 => u.ip
  | 1 => u.aid
  | 2 => u.cid
  | _ => u.oid

structure DiversionCaclRes where
  action : Nat
  backend : NgxStr
  text : NgxStr
deriving DecidableEq, Repr

/-- `a->len == b->len && memcmp(a->data, b->data, a->len) == 0`; `none` reads through NULL. -/
def strEq (a : Bytes) (b : NgxStr) : Option Bool :=
  if a.length = b.len then b.deref.map (· == a) else some false

/-- The host loop (`.cpp:1748-1757`): the first host named like the backend replaces it. -/
def envhostBackend (backend : NgxStr) : List DiversionEnvHost → Option NgxStr
  | [] => some backend
  | h :: hs => do
    if ← strEq h.key backend then return .of h.value
    envhostBackend backend hs

/-- `none` is a NULL dereference of the backend. -/
def diversionProcResult (divEnv : Bytes) (s : Shm) (g : DiversionPolicyGroup) :
    Option DiversionCaclRes :=
  if g.action = 2 then do
    if ← strEq divEnv g.backend then return ⟨1, g.backend, g.text⟩
    return ⟨2, ← envhostBackend g.backend s.envhosts, g.text⟩
  else some ⟨g.action, g.backend, g.text⟩

/-- An array in shared memory; what lies behind it is never read. -/
def memOf (b : Bytes) : Mem := b ++ₛ Stream'.const 0

def findNum32 (p : Bytes) (len n : Nat) : Bool :=
  (BinSearch.search (fun i => compare n (utilityMqttReadUint32 ((memOf p).drop (i * 4))))
    (len / 4) 0 ((len / 4 : Nat) - 1 : Int)).isSome

/-- Where `n` lies relative to a range. -/
def rangeProbe (n : Nat) (r : DiversionPolicyRange) : Ordering :=
  if n ≥ r.start ∧ n ≤ r.end_ then .eq else if n < r.start then .lt else .gt

def findRange (p : List DiversionPolicyRange) (len n : Nat) : Option DiversionPolicyRange :=
  (BinSearch.search (fun i => rangeProbe n (p.getD i ⟨0, 0⟩)) len 0 ((len : Nat) - 1 : Int)).map
    fun i => p.getD i ⟨0, 0⟩

/-- `do { x *= 10; } while (num32set >= x)` on a `uint32_t`. `10 ^ 32` is 0 modulo `2 ^ 32`
and stays 0, so a loop that has not ended after 32 rounds never ends. -/
def suffixMul (num : Nat) : Nat → Nat → Option Nat
  | 0, _ => none
  | fuel + 1, x =>
    let x := x * 10 % 2 ^ 32
    if num ≥ x then suffixMul num fuel x else some x

/-- One number of a suffix policy; `none`: the loop above does not end. -/
def endsWith (v num : Nat) : Option Bool :=
  if v ≥ num then (suffixMul num 32 1).map fun x => v / x * x == v - num else some false

inductive Verdict
  | pass
  | fail
  /-- `continue` with `pass == false`. -/
  | skip
  /-- `default:` of the switch. -/
  | unsupported
  | hang
deriving DecidableEq, Repr

def Verdict.ofBool (b : Bool) : Verdict := if b then .pass else .fail

def suffixLoop (v : Nat) : Nat → Mem → Verdict
  | 0, _ => .fail
  | k + 1, p =>
    match endsWith v (utilityMqttReadUint32 p) with
    | none => .hang
    | some true => .pass
    | some false => suffixLoop v k (p.drop 4)

def bitVectorVerdict (bv : Option BitVector) (v : Nat) : Verdict :=
  match bv with
  | none => .skip
  | some bv => .ofBool (utilityBitVectorGet bv v)

def policyVerdict (s : Shm) (u : DivUserInfo) (policy : DiversionPolicy) : Verdict :=
  let conf := confPtype policy.type
  let v := u.reqVal conf.cvalue
  match conf.stype with
  | .range =>
    if v = 0 then .fail
    else if policy.datalen = 0 then .fail
    else match policy.data with
      | .ranges rs => .ofBool (findRange rs policy.datalen v).isSome
      | _ => .fail
  | .bitSet => if v = 0 then .fail else bitVectorVerdict (s.bitVectorOf policy) v
  | .rbtree =>
    if v = 0 then .fail
    else if policy.bitsetId = 1 then bitVectorVerdict (s.bitVectorOf policy) v
    else match policy.data with
      | .rbtree t => .ofBool (ngxRbtreeLookup4diversion t v)
      | _ => .fail
  | .numSet =>
    if v = 0 then .fail
    else if policy.bitsetId = 1 then bitVectorVerdict (s.bitVectorOf policy) v
    else if policy.datalen = 0 then .fail
    else match policy.data with
      -- `plen = policy->datalen * 4` is a 32-bit product; `find_num32` takes a 32-bit number
      | .nums b => .ofBool (findNum32 b (policy.datalen * 4 % 2 ^ 32) (v % 2 ^ 32))
      | _ => .fail
  | .suffix =>
    if v = 0 then .fail
    else if policy.datalen = 0 then .fail
    else match policy.data with
      | .nums b => suffixLoop v policy.datalen (memOf b)
      | _ => .fail
  | .none | .reserved => .unsupported

/-- How the loop over a group's policies is left. -/
inductive PolicysExit
  | pass (b : Bool)
  | unsupported
  | hang
deriving DecidableEq, Repr

def execPolicys (s : Shm) (u : DivUserInfo) : List DiversionPolicy → Bool → PolicysExit
  | [], pass => .pass pass
  | p :: ps, _ =>
    match policyVerdict s u p with
    | .pass => execPolicys s u ps true
    | .skip => execPolicys s u ps false
    | .fail => .pass false
    | .unsupported => .unsupported
    | .hang => .hang

/-- How `diversion_exec_policy` ends; `ok` records the value of the loop variable `i` at the
`return`. -/
inductive ExecExit
  | ok (i : Nat) (out : DiversionCaclRes)
  | error
  | segv
  | hang
deriving DecidableEq, Repr

def ExecExit.ofResult (i : Nat) : Option DiversionCaclRes → ExecExit
  | some out => .ok i out
  | none => .segv

/-- `pg->uri.len <= userInfo->uri.len && memcmp(...) == 0`. -/
def uriMatches (u : DivUserInfo) (g : DiversionPolicyGroup) : Option Bool :=
  if g.uri.len ≤ u.uri.length then g.uri.deref.map fun b => u.uri.take g.uri.len == b
  else some false

def execGroups (divEnv : Bytes) (s : Shm) (u : DivUserInfo) :
    Nat → List DiversionPolicyGroup → ExecExit
  | _, [] => .error
  | i, g :: gs =>
    match uriMatches u g with
    | none => .segv
    | some false => execGroups divEnv s u (i + 1) gs
    | some true =>
      if s.status = 3 then .ofResult i (diversionProcResult divEnv s g)
      else match execPolicys s u (s.groupPolicys g) false with
        | .pass true => .ofResult i (diversionProcResult divEnv s g)
        | .pass false => execGroups divEnv s u (i + 1) gs
        | .unsupported => .error
        | .hang => .hang

/-- A process that dies or loops inside does not give its count back. -/
def diversionExecPolicy (divEnv : Bytes) (s : Shm) (u : DivUserInfo) : ExecExit × UInt64 :=
  if s.status < 2 then (.error, s.lock)
  else
    let lock := s.lock + 1
    match execGroups divEnv s u 0 s.policyGroup with
    | .ok i out => (.ok i out, lock - 1)
    | .error => (.error, lock - 1)
    | e => (e, lock)

end NgxPlus.Diversion
