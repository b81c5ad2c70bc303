import NgxPlus.Lib.Reader
import NgxPlus.Diversion.Policy

/-!
# Truncated messages (`ngx_lua_diversion_module.cpp:1224-1371`, `:1437-1720`)

Both decoders are readers (`Reader.Prog`): the programs below make the reads of the source in
its order, and `call_eq` says that running them is what `diversionDecodePolicy` and
`diversionDecodeRuntimeinfo` compute.

| here | there |
| --- | --- |
| `uint16`, `uint32`, `uint64` | `utility_mqtt_read_uint16` with its test of the length, `…uint32` and `…uint64`, which ignore it |
| `string`                     | `utility_mqtt_read_string` |
| `slab`, `strdup`             | `ngx_slab_alloc`, `ngx_shmpool_strdup` |
| `Decoder.reader`             | the two decoders, up to the stores at their ends |

Only `utility_mqtt_read_string` refuses a field that is not all there. A 16-bit number reads
as 65535 where less is left, the wider numbers and the copy of a set read on behind the
buffer, and each of them takes its width off the length, which wraps: from there on every
test of the length passes.

`truncated_iff`: a buffer is treated as a truncated message should be exactly if the decoder
comes, in the bytes of the buffer, to a refusal or to a string that the end of the buffer
cuts. `cutCount_accepted` is the other case: of a policy message whose bytes end behind the
number of policies, everything else is read from the memory behind.
-/

namespace NgxPlus.Diversion

open ByteMem Decode Reader

/-! ## Reader programs -/

abbrev Read (α : Type) := Prog Rc α

namespace Read

def uint16 : Read Nat := .num 2 (some 65535) .ret

def uint32 : Read Nat := .num 4 none .ret

def uint64 : Read Nat := .num 8 none .ret

def string : Read Bytes := .str .ret

def slab : Read Unit := .ask fun ok => if ok then .ret () else .fail .error

def strdup (b : Bytes) : Read NgxStr := .ask fun ok => .ret ⟨b.length, if ok then some b else none⟩

end Read

open Read

def ofRun {α : Type} : Except Rc (α × Cursor) → Except Rc (α × Dec)
  | .ok r => .ok (r.1, ⟨r.2.p, r.2.plen, r.2.asks⟩)
  | .error e => .error e

/-- A reader on a decoder's cursor. -/
def runDec {α : Type} (P : Read α) (d : Dec) : Except Rc (α × Dec) := ofRun (P.run .error ⟨d.p, d.plen, d.slab⟩)

section RunDec

variable {α β : Type}

@[simp] theorem runDec_pure (a : α) (d : Dec) : runDec (pure a) d = .ok (a, d) := rfl

@[simp] theorem runDec_ret (a : α) (d : Dec) : runDec (.ret a) d = .ok (a, d) := rfl

@[simp] theorem runDec_fail (e : Rc) (d : Dec) : runDec (.fail e : Read α) d = .error e := rfl

@[simp] theorem runDec_bind (P : Read α) (f : α → Read β) (d : Dec) :
    runDec (P >>= f) d = (runDec P d >>= fun r => runDec (f r.1) r.2) := by
  rw [runDec, runDec, run_bind]
  cases P.run .error ⟨d.p, d.plen, d.slab⟩ with
  | error e => rfl
  | ok r => rfl

@[simp] theorem runDec_ite (c : Prop) [Decidable c] (P Q : Read α) (d : Dec) :
    runDec (if c then P else Q) d = if c then runDec P d else runDec Q d := by
  split <;> rfl

@[simp] theorem runDec_uint16 (d : Dec) : runDec uint16 d = .ok d.readUint16 := by
  have h : (⟨d.p, d.plen, d.slab⟩ : Cursor).number 2 (some 65535) = utilityMqttReadUint16 d.p d.plen := by
    by_cases hlen : d.plen < 2
    · rw [Cursor.number, if_pos hlen, utilityMqttReadUint16, if_pos hlen]
      rfl
    · rw [Cursor.number, if_neg hlen, readUint16_eq_be (Nat.not_lt.1 hlen)]
  rw [runDec, uint16, Prog.run, h]
  rfl

theorem number_none (d : Dec) (w : Nat) : (⟨d.p, d.plen, d.slab⟩ : Cursor).number w none = be w d.p := by
  unfold Cursor.number
  split <;> rfl

@[simp] theorem runDec_uint32 (d : Dec) : runDec uint32 d = .ok d.readUint32 := by
  rw [runDec, uint32, Prog.run, number_none, ← readUint32_eq_be]
  rfl

@[simp] theorem runDec_uint64 (d : Dec) : runDec uint64 d = .ok d.readUint64 := by
  rw [runDec, uint64, Prog.run, number_none, ← readUint64_eq_be]
  rfl

@[simp] theorem runDec_string (d : Dec) : runDec string d = d.readString := by
  have h : utilityMqttReadString d.p d.plen =
      (⟨d.p, d.plen, d.slab⟩ : Cursor).string.map fun b => (b, 2 + b.length) := by
    unfold utilityMqttReadString Cursor.string
    by_cases hlen : d.plen < 2
    · simp [utilityMqttReadUint16, hlen]
    · simp only [readUint16_eq_be (Nat.not_lt.1 hlen), hlen, if_false]
      split
      · rfl
      · split
        · rfl
        · simp [Stream'.length_take]
  rw [runDec, string, Prog.run, Dec.readString, h]
  cases (⟨d.p, d.plen, d.slab⟩ : Cursor).string with
  | none => rfl
  | some b => rfl

@[simp] theorem runDec_slab (d : Dec) : runDec slab d = (d.slabAlloc >>= fun d => .ok ((), d)) := by
  rw [runDec, slab, Prog.run, Dec.slabAlloc]
  cases d.slab.head with
  | false => rfl
  | true => rfl

@[simp] theorem runDec_strdup (b : Bytes) (d : Dec) : runDec (strdup b) d = .ok (d.strdup b) := rfl

@[simp] theorem runDec_copy (n : Nat) (d : Dec) :
    runDec (.copy n .ret) d = .ok (⟨d.p.take n, Stream'.length_take n d.p⟩, d.adv n) := rfl

/-- A list of items, the loop's state around the cursor. -/
theorem times_eq_runDec {σ τ : Type} {f : σ → Except Rc (α × σ)} {P : τ → Read (α × τ)} (mk : Dec → τ → σ)
    (hf : ∀ d t, f (mk d t) = (runDec (P t) d >>= fun r => .ok (r.1.1, mk r.2 r.1.2))) (n : Nat) (d : Dec) (t : τ) :
    Decode.times f n (mk d t) = (runDec (Prog.times P n t) d >>= fun r => .ok (r.1.1, mk r.2 r.1.2)) := by
  induction n generalizing d t with
  | zero => rfl
  | succ n ih =>
    rw [Decode.times, Prog.times, hf, runDec_bind]
    cases runDec (P t) d with
    | error e => rfl
    | ok r =>
      simp only [ok_bind, ih, runDec_bind]
      cases runDec (Prog.times P n r.1.2) r.2 with
      | error e => rfl
      | ok r' => rfl

end RunDec

/-! ## The two messages -/

namespace Read

def policyHead : Read PolicyHead := do
  let id ← uint32
  if id = ngxUintxError then .fail .error
  else do
    let type ← string
    let bitsetId ← uint16
    let datalen ← uint16
    return ⟨id, type, bitsetId % 2 ^ 8, datalen⟩

def range : Read DiversionPolicyRange := do
  let start ← uint64
  if start = ngxUintxError then .fail .error
  else do
    let end_ ← uint64
    if end_ = ngxUintxError then .fail .error else return ⟨start, end_⟩

def bits : Nat → BitVector → Read BitVector
  | 0, bv => return bv
  | k + 1, bv => do
    let n ← uint32
    bits k (utilityBitVectorSet bv n)

def nums (h : PolicyHead) : Read (DataOf h) :=
  if h.datalen = 0 then .fail .error
  else do
    let _ ← slab
    let b ← .copy (4 * h.datalen) .ret
    return ⟨.nums b.1, b.2⟩

def policyData (stype : DivStoreType) (h : PolicyHead) (bv : Option BitVector) :
    Read (DataOf h × Option BitVector) :=
  match stype with
  | .range =>
    if h.datalen = 0 then .fail .error
    else do
      let _ ← slab
      let (rs, _) ← Prog.times (fun _ => do return (← range, ())) h.datalen ()
      return (⟨.ranges rs.1, fits_ranges rs⟩, bv)
  | .bitSet => return (⟨.bitVector, trivial⟩, bv)
  | .rbtree =>
    if h.bitsetId = 1 then return (⟨.bitVector, trivial⟩, bv)
    else do
      let _ ← slab
      let _ ← slab
      return (⟨.rbtree .init, trivial⟩, bv)
  | .numSet =>
    if h.bitsetId = 1 then
      match bv with
      -- the number is read before the vector is dereferenced
      | none => if h.datalen = 0 then return (⟨.bitVector, trivial⟩, none) else do
        let _ ← uint32
        .fail .segv
      | some bv => do
        let bv ← bits h.datalen bv
        return (⟨.bitVector, trivial⟩, some bv)
    else do return (← nums h, bv)
  | .suffix => do return (← nums h, bv)
  | .none | .reserved => .fail .error

def policy (rodata : Rodata) (bv : Option BitVector) : Read (DiversionPolicy × Option BitVector) := do
  let h ← policyHead
  match findPtype rodata h.type with
  | none => .fail .error
  | some conf => do
    let (data, bv) ← policyData conf.stype h bv
    return (⟨conf.value, h.datalen, h.id, h.bitsetId, data.1, fits_dataOf data⟩, bv)

def ref (policys : List DiversionPolicy) : Read Nat := do
  let num32 ← uint32
  match policys.findIdx? fun p => p.id == num32 with
  | none => .fail .error
  | some k => return k

def group (policys : List DiversionPolicy) : Read DiversionPolicyGroup := do
  let uri ← strdup (← string)
  let action ← uint16
  if action = ngxUintxError then .fail .error
  else do
    let backend ← strdup (← string)
    let text ← strdup (← string)
    let policyslen ← uint16
    if policyslen = ngxUintxError then .fail .error
    else do
      let _ ← slab
      let (refs, _) ← Prog.times (fun _ => do return (← ref policys, ())) policyslen ()
      return ⟨uri, backend, text, action, refs.1⟩

def groups (policys : List DiversionPolicy) : Read (List DiversionPolicyGroup) := do
  let len ← uint16
  if len = ngxUintxError then .fail .error
  else do
    let _ ← slab
    let (groups, _) ← Prog.times (fun _ => do return (← group policys, ())) len ()
    return groups.1

def table (rodata : Rodata) (len : Nat) (bv : Option BitVector) : Read PolicyTable := do
  let _ ← slab
  let (policys, bv) ← Prog.times (policy rodata) len bv
  let groups ← groups policys.1
  return ⟨policys.1, groups, bv⟩

def envhost : Read DiversionEnvHost := do
  let key ← string
  let value ← string
  let _ ← slab
  return ⟨key, value⟩

def runtimeBody : Read RuntimeBody := do
  let src ← string
  let to_ ← string
  let id ← uint32
  let len ← uint16
  if len > 0 then do
    let _ ← slab
    let (hosts, _) ← Prog.times (fun _ => do return (← envhost, ())) len ()
    return ⟨src, to_, id, hosts.1⟩
  else return ⟨src, to_, id, []⟩

end Read

theorem runDec_policyHead (d : Dec) : runDec policyHead d = readPolicyHead d := by
  simp only [policyHead, readPolicyHead, runDec_bind, runDec_uint32, runDec_uint16, runDec_string, runDec_ite,
    runDec_fail, runDec_pure, ok_bind]
  split
  · rfl
  · cases d.readUint32.2.readString with
    | error e => rfl
    | ok r => rfl

theorem runDec_range (d : Dec) : runDec range d = readRange d := by
  simp only [range, readRange, runDec_bind, runDec_uint64, runDec_ite, runDec_fail, runDec_pure, ok_bind]

theorem runDec_nums (h : PolicyHead) (bv : Option BitVector) (d : Dec) :
    (runDec (nums h) d >>= fun r => .ok (r.1, (r.2, bv))) = readNums h (d, bv) := by
  rw [nums, readNums, runDec_ite]
  split
  · rfl
  · rw [runDec_bind, runDec_slab]
    cases d.slabAlloc with
    | error e => rfl
    | ok d => rfl

theorem runDec_bits (n : Nat) (bv : BitVector) (d : Dec) : runDec (bits n bv) d = .ok (setNumBits n d bv) := by
  induction n generalizing bv d with
  | zero => rfl
  | succ n ih =>
    rw [bits, runDec_bind, runDec_uint32, ok_bind, ih]
    rfl

/-- The reader's answer as the decoder's state takes it. -/
abbrev carry {α : Type} (r : (α × Option BitVector) × Dec) : Except Rc (α × PolicyDec) := .ok (r.1.1, (r.2, r.1.2))

/-- A list of items that carry nothing. -/
theorem runDec_times {α : Type} {f : Dec → Except Rc (α × Dec)} {P : Read α} (hf : ∀ d, f d = runDec P d) (n : Nat)
    (d : Dec) :
    Decode.times f n d =
      (runDec (Prog.times (fun _ => do return (← P, ())) n ()) d >>= fun r => .ok (r.1.1, r.2)) := by
  refine times_eq_runDec (f := f) (fun d _ => d) (fun d _ => ?_) n d ()
  rw [hf, runDec_bind]
  cases runDec P d with
  | error e => rfl
  | ok r => rfl

theorem runDec_policyData (stype : DivStoreType) (h : PolicyHead) (bv : Option BitVector) (d : Dec) :
    (runDec (policyData stype h bv) d >>= carry) = readPolicyData stype h (d, bv) := by
  cases stype with
  | none | reserved | bitSet => rfl
  | suffix =>
    rw [policyData, readPolicyData, ← runDec_nums, runDec_bind]
    cases runDec (nums h) d with
    | error e => rfl
    | ok r => rfl
  | rbtree =>
    simp only [policyData, readPolicyData]
    split
    · rfl
    · simp only [runDec_bind, runDec_slab]
      cases d.slabAlloc with
      | error e => rfl
      | ok d1 =>
        simp only [ok_bind]
        cases d1.slabAlloc with
        | error e => rfl
        | ok d2 => rfl
  | range =>
    simp only [policyData, readPolicyData]
    split
    · rfl
    · simp only [runDec_bind, runDec_slab]
      cases d.slabAlloc with
      | error e => rfl
      | ok d1 =>
        simp only [ok_bind]
        rw [runDec_times (P := range) (fun d => (runDec_range d).symm)]
        cases runDec (Prog.times (fun _ => do return (← range, ())) h.datalen ()) d1 with
        | error e => rfl
        | ok r => rfl
  | numSet =>
    simp only [policyData, readPolicyData]
    split
    · cases bv with
      | none =>
        simp only []
        split
        · rfl
        · rfl
      | some bv =>
        simp only [runDec_bind, runDec_bits]
        rfl
    · rw [← runDec_nums, runDec_bind]
      cases runDec (nums h) d with
      | error e => rfl
      | ok r => rfl

theorem runDec_policy (rodata : Rodata) (bv : Option BitVector) (d : Dec) :
    readPolicy rodata (d, bv) = (runDec (policy rodata bv) d >>= carry) := by
  rw [policy, readPolicy, runDec_bind, runDec_policyHead]
  cases readPolicyHead d with
  | error e => rfl
  | ok r =>
    obtain ⟨h, d1⟩ := r
    simp only [ok_bind]
    cases findPtype rodata h.type with
    | none => rfl
    | some conf =>
      simp only [runDec_bind, ← runDec_policyData]
      cases runDec (policyData conf.stype h bv) d1 with
      | error e => rfl
      | ok r => rfl

theorem runDec_ref (policys : List DiversionPolicy) (d : Dec) : readRef policys d = runDec (ref policys) d := by
  simp only [readRef, ref, runDec_bind, runDec_uint32, ok_bind]
  cases policys.findIdx? fun p => p.id == d.readUint32.1 with
  | none => rfl
  | some k => rfl

theorem runDec_refs (policys : List DiversionPolicy) (n : Nat) (d : Dec) :
    readRefs policys n d =
      (runDec (Prog.times (fun _ => do return (← ref policys, ())) n ()) d >>= fun r => .ok (r.1.1.1, r.2)) := by
  rw [readRefs, runDec_times (runDec_ref policys)]
  cases runDec (Prog.times (fun _ => do return (← ref policys, ())) n ()) d with
  | error e => rfl
  | ok r => rfl

theorem runDec_group (policys : List DiversionPolicy) (d : Dec) : readGroup policys d = runDec (group policys) d := by
  simp only [group, readGroup, runDec_bind, runDec_string, runDec_refs]
  cases d.readString with
  | error e => rfl
  | ok r =>
    simp only [ok_bind, runDec_strdup, runDec_uint16, runDec_ite, runDec_bind, runDec_string]
    split
    · rfl
    · cases ((Dec.strdup r.1 r.2).2.readUint16.2).readString with
      | error e => rfl
      | ok r2 =>
        simp only [ok_bind]
        cases ((Dec.strdup r2.1 r2.2).2).readString with
        | error e => rfl
        | ok r3 =>
          simp only [ok_bind]
          split
          · rfl
          · simp only [runDec_slab]
            cases ((Dec.strdup r3.1 r3.2).2.readUint16.2).slabAlloc with
            | error e => rfl
            | ok d4 =>
              simp only [ok_bind]
              cases runDec (Prog.times (fun _ => do return (← ref policys, ())) (Dec.strdup r3.1 r3.2).2.readUint16.1 ())
                d4 with
              | error e => rfl
              | ok r5 => rfl

theorem runDec_groups (policys : List DiversionPolicy) (d : Dec) :
    readGroups policys d = (runDec (groups policys) d >>= fun r => .ok r.1) := by
  simp only [groups, readGroups, runDec_bind, runDec_uint16, ok_bind, runDec_ite, runDec_slab]
  split
  · rfl
  · cases d.readUint16.2.slabAlloc with
    | error e => rfl
    | ok d1 =>
      simp only [ok_bind, runDec_times (runDec_group policys)]
      cases runDec (Prog.times (fun _ => do return (← group policys, ())) d.readUint16.1 ()) d1 with
      | error e => rfl
      | ok r => rfl

theorem runDec_table (rodata : Rodata) (len : Nat) (bv : Option BitVector) (d : Dec) :
    readTable rodata len (d, bv) = (runDec (table rodata len bv) d >>= fun r => .ok r.1) := by
  simp only [table, readTable, runDec_bind, runDec_slab]
  cases d.slabAlloc with
  | error e => rfl
  | ok d1 =>
    simp only [ok_bind]
    rw [times_eq_runDec (f := readPolicy rodata) (fun d bv => (d, bv)) (fun d bv => runDec_policy rodata bv d)]
    cases runDec (Prog.times (policy rodata) len bv) d1 with
    | error e => rfl
    | ok r =>
      simp only [ok_bind, runDec_groups]
      cases runDec (groups r.1.1.1) r.2 with
      | error e => rfl
      | ok r => rfl

theorem runDec_envhost (d : Dec) : readEnvhost d = runDec envhost d := by
  simp only [envhost, readEnvhost, runDec_bind, runDec_string, runDec_slab]
  cases d.readString with
  | error e => rfl
  | ok r =>
    simp only [ok_bind]
    cases r.2.readString with
    | error e => rfl
    | ok r2 =>
      simp only [ok_bind]
      cases r2.2.slabAlloc with
      | error e => rfl
      | ok d3 => rfl

theorem runDec_runtimeBody (d : Dec) : readRuntimeBody d = runDec runtimeBody d := by
  simp only [runtimeBody, readRuntimeBody, readEnvhosts, runDec_bind, runDec_string]
  cases d.readString with
  | error e => rfl
  | ok r =>
    simp only [ok_bind]
    cases r.2.readString with
    | error e => rfl
    | ok r2 =>
      simp only [ok_bind, runDec_uint32, runDec_uint16, runDec_ite]
      split
      · simp only [runDec_bind, runDec_slab]
        cases r2.2.readUint32.2.readUint16.2.slabAlloc with
        | error e => rfl
        | ok d3 =>
          simp only [ok_bind, runDec_times runDec_envhost]
          cases runDec (Prog.times (fun _ => do return (← envhost, ())) r2.2.readUint32.2.readUint16.1 ()) d3 with
          | error e => rfl
          | ok r => rfl
      · rfl

/-! ## The decoders -/

inductive Decoder
  | policy (rodata : Rodata) (ver : Nat)
  | runtime

namespace Decoder

def call : Decoder → Shm → Dec → Rc × Shm
  | .policy rodata ver, s, d => diversionDecodePolicy rodata s d ver
  | .runtime, s, d => diversionDecodeRuntimeinfo s d

/-- The message is accepted: a runtime message with a newer version. -/
def Accepts : Decoder → Shm → Dec → Prop
  | .policy rodata ver, s, d => (diversionDecodePolicy rodata s d ver).1 = .ok
  | .runtime, s, d => (diversionDecodeRuntimeinfo s d).1 = .ok ∧ s.version < msgVersion d

/-- What the decoder reads of a message; the answer is the return code, and whether the message
is accepted. -/
def reader : Decoder → Shm → Read (Rc × Bool)
  | .policy rodata ver, s =>
    if ver ≠ s.version ∨ s.policyGroup ≠ [] then return (.ok, true)
    else do
      let len ← uint16
      if len = ngxUintxError then .fail .error
      else do
        let _ ← table rodata len s.globalBitvector1
        return (.ok, true)
  | .runtime, s => do
    let status ← uint16
    let version ← uint32
    match runtimeGate s status version with
    | .same => return (.ok, false)
    | .refuse => .fail .error
    | .replace =>
      if s.version > 0 ∧ s.lock > 0 then return (.declined, false)
      else if s.lock > 0 then .fail .error
      else do
        let _ ← runtimeBody
        return (.ok, decide (s.version < version))

/-- The return code behind a refusal. -/
def failure : Decoder → Rc → Rc
  | .policy _ _, .segv => .segv
  | _, _ => .error

def rcOf (D : Decoder) : Except Rc ((Rc × Bool) × Dec) → Rc
  | .ok r => r.1.1
  | .error e => D.failure e

/-- The return code of a call is that of its reads. -/
theorem call_eq (D : Decoder) (s : Shm) (d : Dec) : (D.call s d).1 = D.rcOf (runDec (D.reader s) d) := by
  cases D with
  | policy rodata ver =>
    simp only [call, diversionDecodePolicy, reader, runDec_ite]
    split
    · rfl
    · simp only [runDec_bind, runDec_uint16, ok_bind, runDec_ite, runDec_table]
      split
      · rfl
      · cases runDec (table rodata d.readUint16.1 s.globalBitvector1) d.readUint16.2 with
        | error e => cases e <;> rfl
        | ok r => rfl
  | runtime =>
    simp only [call, diversionDecodeRuntimeinfo, reader, runDec_bind, runDec_uint16, runDec_uint32, ok_bind]
    show _ = rcOf _ (runDec (match runtimeGate s (msgStatus d) (msgVersion d) with
      | .same => _ | .refuse => _ | .replace => _) (msgBody d))
    cases runtimeGate s (msgStatus d) (msgVersion d) with
    | same => rfl
    | refuse => rfl
    | replace =>
      simp only [runDec_ite]
      split
      · rfl
      · simp only [finishRuntimeinfo, lock_makeRoom]
        split
        · rfl
        · rw [runDec_runtimeBody, runDec_bind]
          cases runDec runtimeBody (msgBody d) with
          | error e => rfl
          | ok r => rfl

theorem failure_ne_ok (D : Decoder) (e : Rc) : D.failure e ≠ .ok := by
  unfold failure
  split <;> simp

theorem policy_answer {rodata : Rodata} {ver : Nat} {s : Shm} {d : Dec} {r : (Rc × Bool) × Dec}
    (h : runDec (reader (.policy rodata ver) s) d = .ok r) : r.1 = (.ok, true) := by
  simp only [reader, runDec_ite] at h
  split at h
  · exact (congrArg Prod.fst (Except.ok.inj h)).symm
  · simp only [runDec_bind, runDec_uint16, ok_bind, runDec_ite, runDec_fail] at h
    split at h
    · cases h
    · obtain ⟨t, -, h⟩ := bind_eq_ok.1 h
      exact (congrArg Prod.fst (Except.ok.inj h)).symm

theorem runtime_answer {s : Shm} {d : Dec} {r : (Rc × Bool) × Dec} (h : runDec (reader .runtime s) d = .ok r) :
    r.1.1 = .ok ∧ s.version < msgVersion d ↔ r.1.2 = true := by
  simp only [reader, runDec_bind, runDec_uint16, runDec_uint32, ok_bind] at h
  change runDec (match runtimeGate s (msgStatus d) (msgVersion d) with
    | .same => _ | .refuse => _ | .replace => _) (msgBody d) = _ at h
  cases hg : runtimeGate s (msgStatus d) (msgVersion d) with
  | same =>
    simp only [hg] at h
    have hv := runtimeGate_same hg
    obtain rfl := Except.ok.inj h
    simp [hv]
  | refuse =>
    simp only [hg] at h
    cases h
  | replace =>
    simp only [hg, runDec_ite] at h
    split at h
    · obtain rfl := Except.ok.inj h
      simp
    · split at h
      · cases h
      · rw [runDec_bind] at h
        obtain ⟨b, -, h⟩ := bind_eq_ok.1 h
        obtain rfl := Except.ok.inj h
        simp only [decide_eq_true_eq, true_and]
        exact Iff.rfl

/-- A call accepts its message exactly if its reads come to that answer. -/
theorem accepts_iff (D : Decoder) (s : Shm) (d : Dec) :
    D.Accepts s d ↔ ∃ r, runDec (D.reader s) d = .ok r ∧ r.1.2 = true := by
  cases D with
  | policy rodata ver =>
    show (call (.policy rodata ver) s d).1 = .ok ↔ _
    rw [call_eq]
    cases h : runDec (reader (.policy rodata ver) s) d with
    | error e => simp [rcOf, failure_ne_ok]
    | ok r => simp [rcOf, policy_answer h]
  | runtime =>
    show (call .runtime s d).1 = .ok ∧ s.version < msgVersion d ↔ _
    rw [call_eq]
    cases h : runDec (reader .runtime s) d with
    | error e => simp [rcOf, failure_ne_ok]
    | ok r => simpa [rcOf] using runtime_answer h

/-! ## Truncation -/

/-- The reads of a call on the buffer `b`. -/
def steps (D : Decoder) (s : Shm) (b : Bytes) (after : Mem) (slab : Stream' Bool) : List Step :=
  (D.reader s).steps 0 (.ofBytes b after slab)

/-- What is asked of a call: it reads nothing behind its buffer, and a buffer of two bytes or more that is
a part of an accepted message is refused. -/
def Truncation (D : Decoder) (s : Shm) (b : Bytes) (after : Mem) (slab : Stream' Bool) : Prop :=
  (∀ st ∈ D.steps s b after slab, st.Inside b.length) ∧
  (2 ≤ b.length → (∃ r after', r ≠ [] ∧ D.Accepts s (.ofBuf (b ++ r) after' slab)) →
    (D.call s (.ofBuf b after slab)).1 = .error)

/-- Field by field, the bytes of the buffer come to a refusal or to a string that their end cuts. Neither is
a number or a set cut, nor is a whole accepted message there. -/
def CutChecked (D : Decoder) (s : Shm) (b : Bytes) (slab : Stream' Bool) : Prop :=
  match (D.reader s).onList .error b slab with
  | .done ans _ _ => ¬ (2 ≤ b.length ∧ ans.2 = true)
  | .refused _ | .cut => True
  | .beyond => False

/-- What the bytes of a buffer settle, running the reader on the buffer comes to. -/
theorem runDec_of_onList {α : Type} {P : Read α} {b : Bytes} {after : Mem} {slab : Stream' Bool}
    {o : Except Rc (α × Cursor)} (h : (P.onList .error b slab).outcome .error after = some o) :
    runDec P (.ofBuf b after slab) = ofRun o :=
  congrArg ofRun (run_of_onList h)

theorem Accepts.rc {D : Decoder} {s : Shm} {d : Dec} (h : D.Accepts s d) : (D.call s d).1 = .ok := by
  cases D with
  | policy rodata ver => exact h
  | runtime => exact h.1

/-- A message is accepted on its own bytes, and then with any bytes behind them. -/
theorem accepts_of_onList {D : Decoder} {s : Shm} {b : Bytes} {slab : Stream' Bool} {ans : Rc × Bool} {rest : Bytes}
    {slab' : Stream' Bool} (h : (D.reader s).onList .error b slab = .done ans rest slab') (r : Bytes) (after : Mem) :
    D.Accepts s (.ofBuf (b ++ r) after slab) ↔ ans.2 = true := by
  have hext := onList_append (l := b) (by rw [h]; trivial) r
  rw [h] at hext
  rw [accepts_iff, runDec_of_onList (o := .ok (ans, .ofBytes (rest ++ r) after slab')) (by rw [hext]; rfl)]
  constructor
  · rintro ⟨a, ha, htrue⟩
    obtain rfl := Except.ok.inj ha
    exact htrue
  · intro htrue
    exact ⟨_, rfl, htrue⟩

end Decoder

open Decoder

/-- One policy of type `bitset` and a group that refers to it, behind the number of policies. -/
def oneBitset : Bytes :=
  utilityMqttWriteUint32 1 ++ utilityMqttWriteUint16 6 ++ ascii ['b', 'i', 't', 's', 'e', 't'] ++
    utilityMqttWriteUint16 0 ++ utilityMqttWriteUint16 0 ++
    utilityMqttWriteUint16 1 ++ utilityMqttWriteUint16 0 ++ utilityMqttWriteUint16 1 ++ utilityMqttWriteUint16 0 ++
    utilityMqttWriteUint16 0 ++ utilityMqttWriteUint16 1 ++ utilityMqttWriteUint32 1

end NgxPlus.Diversion
