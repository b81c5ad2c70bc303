import NgxPlus.Lib.AssocList
import NgxPlus.Lib.Trace
import NgxPlus.Diversion.LuaCodec

/-!
# The synchronisation permission (`lib/admin/runtime/get.lua`)

| here | there |
| --- | --- |
| `startswith`      | `Utility.lua:43-52`; `string.find` takes a pattern, in which a dot is any character |
| `Entry`           | a value of `DICT_DIV_sysconf_tmp`; `expires` when it was set with an `exptime` |
| `ServerArgs`      | `args`, of which the script reads `ver`, `address` and `status`; a value from the query is a string, `true` or a list, and only the script writes a number |
| `register`        | the first section under the lock (`get.lua:19-24`) |
| `readRuntime`     | `:26-42`: reading `DIV_runtimeInfo` and the exits without a second section |
| `scan`            | the second section (`:44-86`) |
| `expire`, `remove`| a record whose `exptime` has passed, and a key that is removed |
| `setRuntime`, `setMonitor`, `setToken` | the other writers (`init.lua:45`, `:98`, `login/user.lua:33`) |

`cjson.decode` gives back what `cjson.encode` was given, so a record is kept as the table
itself. A poll is one run of the script; polls are numbered, and `reqs i` is the request of
poll `i`.

The grant is a record with the *number* 1 that never expires, which only the holder's next
registration overwrites: `sync_permission_exclusive`.
-/

namespace NgxPlus.Diversion

open ByteMem Trace

/-! ## `startswith` -/

/-- A pattern without other magic characters than dots, at the start of a string. -/
def matchDots : Bytes → Bytes → Bool
  | [], _ => true
  | _ :: _, [] => false
  | p :: ps, c :: cs => (p == 0x2e || p == c) && matchDots ps cs

/-- `string.find(str, pattern)`: where it matches first, counted from 1. -/
def luaFind (pattern : Bytes) : Bytes → Option Nat
  | [] => if matchDots pattern [] then some 1 else none
  | c :: cs => if matchDots pattern (c :: cs) then some 1 else (luaFind pattern cs).map (· + 1)

def startswith (str substr : Bytes) : Bool := luaFind substr str == some 1

theorem matchDots_append (p rest : Bytes) : matchDots p (p ++ rest) = true := by
  induction p with
  | nil => rfl
  | cons c p ih => simp [matchDots, ih]

theorem startswith_append (p rest : Bytes) : startswith (p ++ rest) p = true := by
  have h := matchDots_append p rest
  unfold startswith
  cases hs : p ++ rest with
  | nil => rw [hs] at h; simp [luaFind, h]
  | cons c cs => rw [hs] at h; simp [luaFind, h]

/-! ## The dictionary -/

inductive LuaArg
  | str (b : Bytes)
  | flag
  | many (bs : List Bytes)
  | num (n : Nat)
deriving DecidableEq, Repr

structure ServerArgs where
  ver : Option LuaArg
  address : Option LuaArg
  status : Option LuaArg
deriving DecidableEq, Repr

inductive Stored
  | json (args : ServerArgs)
  | raw (b : Bytes)
deriving DecidableEq, Repr

structure Entry where
  value : Stored
  expires : Bool
deriving DecidableEq, Repr

abbrev Dict := AssocList Bytes Entry

def aliveServers : Bytes :=
  ascii ['a', 'l', 'i', 'v', 'e', '.', 's', 'e', 'r', 'v', 'e', 'r', 's', '.']

def aliveKey (address : Bytes) : Bytes := aliveServers ++ address

def runtimeInfoKey : Bytes :=
  ascii ['D', 'I', 'V', '_', 'r', 'u', 'n', 't', 'i', 'm', 'e', 'I', 'n', 'f', 'o']

def monitorKey (host : Bytes) : Bytes :=
  ascii ['m', 'o', 'n', 'i', 't', 'o', 'r', '.', 's', 't', 'a', 't', 'u', 's', '.'] ++ host

def tokenKey (token : Bytes) : Bytes :=
  ascii ['_', 'a', 'c', 'c', 'e', 's', 's', '_', 't', 'o', 'k', 'e', 'n', '_'] ++ token

/-- `nodes`, from all keys; `none` when `cjson.decode` raises. -/
def aliveNodes (d : Dict) : Option (List ServerArgs) :=
  ((d.map Prod.fst).filter fun k => startswith k aliveServers).filterMapM fun k =>
    match AssocList.get d k with
    | none => some none
    | some ⟨.json args, _⟩ => some (some args)
    | some ⟨.raw _, _⟩ => none

/-! ## Polls -/

structure PollReq where
  ver : Option LuaArg
  address : Bytes
  status : Option LuaArg
  accept : Option Bytes
deriving DecidableEq, Repr

def PollReq.args (r : PollReq) : ServerArgs := ⟨r.ver, some (.str r.address), r.status⟩

/-- What a poll is answered. -/
inductive Reply
  /-- `ngx.exit(204)`, the JSON answer, or an error. -/
  | none
  /-- The runtime buffer, with the permission. -/
  | granted (runtimeInfoBuf : Bytes)
  /-- Another server holds the permission; the empty runtime info for a client in status -1. -/
  | refused (body : Option Bytes)
deriving DecidableEq, Repr

inductive PollPc
  | arrived
  | registered
  | deciding (runtimeInfoBuf : Bytes)
  | ended (r : Reply)
deriving DecidableEq, Repr

structure Admin where
  dict : Dict
  polls : Nat → PollPc

inductive PollStep
  | register (i : Nat)
  | readRuntime (i : Nat)
  | scan (i : Nat)
  | expire (k : Bytes)
  | remove (k : Bytes)
  | setRuntime (b : Bytes)
  | setMonitor (host b : Bytes)
  | setToken (token b : Bytes)
deriving DecidableEq, Repr

def octetStream : Bytes :=
  ascii ['a', 'p', 'p', 'l', 'i', 'c', 'a', 't', 'i', 'o', 'n', '/',
    'o', 'c', 't', 'e', 't', '-', 's', 't', 'r', 'e', 'a', 'm']

/-- `tostring` of a version. -/
def tostring (n : Nat) : Bytes := ascii (Nat.toDigits 10 n)

def Admin.pollTo (s : Admin) (i : Nat) (pc : PollPc) : Admin :=
  { s with polls := Function.update s.polls i pc }

/-- `lcommon.encode_runtimeInfo({ver=0, status=0, fid=0}, {})`. -/
def emptyRuntime : Option Bytes := (encodeRuntimeInfo ⟨0, 0, 0, none, none⟩ (some [])).toOption

section

variable (after : Behind) (reqs : Nat → PollReq)

/-- The runtime buffer, if the poll goes on to its second section. -/
def runtimeFor (d : Dict) (r : PollReq) : Option Bytes :=
  match AssocList.get d runtimeInfoKey with
  | some ⟨.raw runtimeInfoBuf, _⟩ =>
    match decodeRuntimeInfo after runtimeInfoBuf with
    | .ok (runtimeInfo, _) =>
      if r.ver = some (.str (tostring runtimeInfo.ver)) then none
      else if r.accept = some octetStream then some runtimeInfoBuf
      else none
    | .error _ => none
  | _ => none

/-- `n.status == 1`. -/
def holdsPermission (n : ServerArgs) : Bool := n.status == some (.num 1)

/-- `syncNode == nil`. -/
def permissionFree (d : Dict) : Bool :=
  match aliveNodes d with
  | some nodes => !nodes.any holdsPermission
  | none => false

def scanStep (s : Admin) (i : Nat) (runtimeInfoBuf : Bytes) : Admin :=
  match aliveNodes s.dict with
  | none => s.pollTo i (.ended .none)
  | some nodes =>
    if nodes.any holdsPermission then
      s.pollTo i (.ended (.refused
        (if (reqs i).status = some (.str (ascii ['-', '1'])) then emptyRuntime else none)))
    else
      { s.pollTo i (.ended (.granted runtimeInfoBuf)) with
        dict := AssocList.set s.dict (aliveKey (reqs i).address)
          ⟨.json { (reqs i).args with status := some (.num 1) }, false⟩ }

/-- A step that is not possible leaves the state as it is. -/
def pollStep (s : Admin) : PollStep → Admin
  | .register i =>
    if s.polls i = .arrived then
      { s.pollTo i .registered with
        dict := AssocList.set s.dict (aliveKey (reqs i).address) ⟨.json (reqs i).args, true⟩ }
    else s
  | .readRuntime i =>
    if s.polls i = .registered then
      match runtimeFor after s.dict (reqs i) with
      | some runtimeInfoBuf => s.pollTo i (.deciding runtimeInfoBuf)
      | none => s.pollTo i (.ended .none)
    else s
  | .scan i =>
    match s.polls i with
    | .deciding runtimeInfoBuf => scanStep reqs s i runtimeInfoBuf
    | _ => s
  | .expire k =>
    match AssocList.get s.dict k with
    | some ⟨_, true⟩ => { s with dict := AssocList.delete s.dict k }
    | _ => s
  | .remove k => { s with dict := AssocList.delete s.dict k }
  | .setRuntime b => { s with dict := AssocList.set s.dict runtimeInfoKey ⟨.raw b, false⟩ }
  | .setMonitor host b => { s with dict := AssocList.set s.dict (monitorKey host) ⟨.raw b, true⟩ }
  | .setToken token b => { s with dict := AssocList.set s.dict (tokenKey token) ⟨.raw b, false⟩ }

/-- The server to which the step gives the permission. -/
def grantedTo (s : Admin) : PollStep → Option Bytes
  | .scan i =>
    match s.polls i with
    | .deciding _ => if permissionFree s.dict then some (reqs i).address else none
    | _ => none
  | _ => none

/-- A step that ends what server `a` was given: its next poll, or the removal of its key. -/
def Releases (a : Bytes) (s : Admin) : PollStep → Prop
  | .register i => s.polls i = .arrived ∧ (reqs i).address = a
  | .remove k => k = aliveKey a
  | _ => False

/-! ## The holder -/

/-- The record of server `a` has the number 1 and no `exptime`. -/
def Holder (a : Bytes) (d : Dict) : Prop :=
  ∃ args : ServerArgs, AssocList.get d (aliveKey a) = some ⟨.json args, false⟩ ∧ args.status = some (.num 1)

theorem aliveKey_inj {a b : Bytes} (h : aliveKey a = aliveKey b) : a = b := List.append_cancel_left h

/-- The other writers use keys of their own. -/
theorem aliveKey_ne {a k : Bytes} (h : k.head? ≠ some 0x61) : aliveKey a ≠ k := by
  intro he
  rw [← he] at h
  exact h rfl

variable {after reqs}

theorem Holder.set {a k : Bytes} {d : Dict} (h : Holder a d) (hk : aliveKey a ≠ k) (e : Entry) :
    Holder a (AssocList.set d k e) := by
  obtain ⟨args, hg, h1⟩ := h
  exact ⟨args, by rw [AssocList.get_set_of_ne d e hk]; exact hg, h1⟩

theorem Holder.delete {a k : Bytes} {d : Dict} (h : Holder a d) (hk : aliveKey a ≠ k) :
    Holder a (AssocList.delete d k) := by
  obtain ⟨args, hg, h1⟩ := h
  exact ⟨args, by rw [AssocList.get_delete_of_ne d hk]; exact hg, h1⟩

theorem mem_filterMapM_option {α β : Type} {f : α → Option (Option β)} {l : List α} {r : List β}
    (h : l.filterMapM f = some r) {x : α} {y : β} (hx : x ∈ l) (hy : f x = some (some y)) : y ∈ r := by
  induction l generalizing r with
  | nil => simp at hx
  | cons a l ih =>
    rw [List.filterMapM_cons] at h
    obtain ⟨o, ho, h⟩ := Option.bind_eq_some_iff.1 h
    cases o with
    | none =>
      rcases List.mem_cons.1 hx with rfl | hx
      · rw [hy] at ho; simp at ho
      · exact ih h hx
    | some b =>
      obtain ⟨r', hr', h⟩ := Option.bind_eq_some_iff.1 h
      obtain rfl := Option.some.inj h
      rcases List.mem_cons.1 hx with rfl | hx
      · rw [hy] at ho
        simp only [Option.some.injEq] at ho
        exact ho ▸ List.mem_cons_self
      · exact List.mem_cons_of_mem _ (ih hr' hx)

/-- The scan sees the holder's record. -/
theorem Holder.not_free {a : Bytes} {d : Dict} (h : Holder a d) : permissionFree d = false := by
  obtain ⟨args, hg, h1⟩ := h
  unfold permissionFree
  cases hn : aliveNodes d with
  | none => rfl
  | some nodes =>
    have hk : aliveKey a ∈ (d.map Prod.fst).filter fun k => startswith k aliveServers := by
      rw [List.mem_filter]
      exact ⟨List.mem_map_of_mem (AssocList.mem_of_get hg), startswith_append _ _⟩
    have hmem : args ∈ nodes := mem_filterMapM_option hn hk (by rw [hg])
    have hany : nodes.any holdsPermission = true :=
      List.any_eq_true.2 ⟨args, hmem, by simp [holdsPermission, h1]⟩
    simp [hany]

/-- Granting makes a holder. -/
theorem holder_of_grantedTo {s : Admin} {c : PollStep} {a : Bytes} (h : grantedTo reqs s c = some a) :
    Holder a (pollStep after reqs s c).dict := by
  cases c with
  | scan i =>
    simp only [grantedTo, pollStep] at h ⊢
    cases hp : s.polls i with
    | deciding buf =>
      simp only [hp] at h ⊢
      cases hf : permissionFree s.dict with
      | false => simp [hf] at h
      | true =>
        simp only [hf, if_true, Option.some.injEq] at h
        subst h
        unfold permissionFree at hf
        cases hn : aliveNodes s.dict with
        | none => simp [hn] at hf
        | some nodes =>
          simp only [hn, Bool.not_eq_true'] at hf
          simp only [scanStep, hn, hf, Bool.false_eq_true, if_false]
          exact ⟨_, AssocList.get_set_self _ _ _, rfl⟩
    | _ => simp [hp] at h
  | _ => simp [grantedTo] at h

/-- No step but the holder's registration and the removal of its key changes its record. -/
theorem Holder.step {a : Bytes} {s : Admin} (h : Holder a s.dict) {c : PollStep}
    (hc : ¬ Releases reqs a s c) : Holder a (pollStep after reqs s c).dict := by
  cases c with
  | register i =>
    simp only [pollStep]
    split
    · rename_i hi
      exact h.set (fun he => hc ⟨hi, (aliveKey_inj he).symm⟩) _
    · exact h
  | readRuntime i =>
    simp only [pollStep]
    split
    · cases runtimeFor after s.dict (reqs i) <;> exact h
    · exact h
  | scan i =>
    simp only [pollStep]
    cases hp : s.polls i with
    | deciding buf =>
      have hnf := h.not_free
      unfold permissionFree at hnf
      simp only [scanStep]
      cases hn : aliveNodes s.dict with
      | none => exact h
      | some nodes =>
        simp only [hn, Bool.not_eq_false'] at hnf
        simp only [hnf, if_true]
        exact h
    | _ => exact h
  | expire k =>
    simp only [pollStep]
    split
    · rename_i hg
      refine h.delete ?_
      rintro rfl
      obtain ⟨args, hg', -⟩ := h
      rw [hg'] at hg
      simp at hg
    · exact h
  | remove k => exact h.delete fun he => hc he.symm
  | setRuntime b => exact h.set (aliveKey_ne (by decide)) _
  | setMonitor host b => exact h.set (aliveKey_ne (by simp [monitorKey, ascii])) _
  | setToken token b => exact h.set (aliveKey_ne (by simp [tokenKey, ascii])) _

theorem Holder.run {a : Bytes} {s : Admin} (h : Holder a s.dict) {cs : List PollStep}
    (hc : Always (pollStep after reqs) (fun s c => ¬ Releases reqs a s c) s cs) :
    Holder a (run (pollStep after reqs) s cs).dict :=
  run_inv (I := fun s => Holder a s.dict) (pollStep after reqs) (fun _ _ hs hn => hs.step hn) h hc

/-- **One holder**: between a grant and the next one, to whichever server, the first holder
polls again or its key is removed. Any number of servers and polls, any interleaving, from any
state. -/
theorem sync_permission_exclusive (s₀ : Admin) (pre mid : List PollStep) {c d : PollStep} {a b : Bytes}
    (ha : grantedTo reqs (run (pollStep after reqs) s₀ pre) c = some a)
    (hb : grantedTo reqs (run (pollStep after reqs) s₀ (pre ++ c :: mid)) d = some b) :
    ∃ as e bs, mid = as ++ e :: bs ∧
      Releases reqs a (run (pollStep after reqs) s₀ (pre ++ c :: as)) e := by
  by_contra hno
  rw [run_append, run_cons] at hb
  have hall : Always (pollStep after reqs) (fun s e => ¬ Releases reqs a s e)
      (pollStep after reqs (run (pollStep after reqs) s₀ pre) c) mid := by
    rw [always_iff]
    intro as e bs he hrel
    refine hno ⟨as, e, bs, he, ?_⟩
    rw [run_append, run_cons]
    exact hrel
  have hfree := ((holder_of_grantedTo ha).run hall).not_free
  cases d with
  | scan j =>
    simp only [grantedTo, hfree] at hb
    split at hb <;> simp at hb
  | _ => simp [grantedTo] at hb

end

/-- Server `A` sends polls 0 and 1, server `B` poll 2. -/
def twoServers (i : Nat) : PollReq :=
  ⟨some (.str (ascii ['9'])), if i < 2 then ascii ['A'] else ascii ['B'],
    some (.str (ascii ['0'])), some octetStream⟩

def firstGrant : List PollStep :=
  [.setRuntime [0, 1, 0, 0, 0, 1, 0, 0, 0, 0, 0, 0, 0, 0, 0, 0], .register 0, .readRuntime 0]

def secondGrant : List PollStep := [.register 1, .register 2, .readRuntime 2]

/-- `A` is granted, polls again, and then `B` is granted. -/
theorem sync_permission_exclusive_two_servers :
    grantedTo twoServers (run (pollStep (fun _ => Stream'.const 0) twoServers) ⟨[], fun _ => .arrived⟩
        firstGrant) (.scan 0) = some (ascii ['A']) ∧
      grantedTo twoServers (run (pollStep (fun _ => Stream'.const 0) twoServers) ⟨[], fun _ => .arrived⟩
        (firstGrant ++ .scan 0 :: secondGrant)) (.scan 2) = some (ascii ['B']) ∧
      ∃ as e bs, secondGrant = as ++ e :: bs ∧
        Releases twoServers (ascii ['A']) (run (pollStep (fun _ => Stream'.const 0) twoServers)
          ⟨[], fun _ => .arrived⟩ (firstGrant ++ .scan 0 :: as)) e := by
  have ha : grantedTo twoServers (run (pollStep (fun _ => Stream'.const 0) twoServers)
      ⟨[], fun _ => .arrived⟩ firstGrant) (.scan 0) = some (ascii ['A']) := by decide +kernel
  have hb : grantedTo twoServers (run (pollStep (fun _ => Stream'.const 0) twoServers)
      ⟨[], fun _ => .arrived⟩ (firstGrant ++ .scan 0 :: secondGrant)) (.scan 2) =
        some (ascii ['B']) := by decide +kernel
  exact ⟨ha, hb, sync_permission_exclusive _ firstGrant secondGrant ha hb⟩

end NgxPlus.Diversion
