import NgxPlus.Diversion.Runtime

/-!
# Policy messages: `diversion_decode_policy` (`ngx_lua_diversion_module.cpp:1437-1720`)

| here | there |
| --- | --- |
| `findPtype`          | the type lookup, from the end of the table (`.cpp:1500-1507`) |
| `readPolicyHead`     | `.cpp:1480-1498` |
| `readRange`, `setNumBits`, `readNums` | the loops and the copy of the `switch` |
| `readPolicyData`     | `switch (conf_ptype->stype)` (`.cpp:1515-1622`) |
| `readRef`, `readGroup` | the second loop (`.cpp:1643-1705`) |
| `diversionDecodePolicy` | the function; `updatePolicy` is the Lua call (`.cpp:816-837`) |

`memcmp(type.data, name.data, type.len)` compares as many bytes as the *message* says: a
shorter type matches any name it begins, the empty one the last name of the table, and a
longer one reads past the name's terminator into `rodata`.

The numbers of a bit-backed `ipset` go into `global_bitvector_1` while the message is read,
so the vector is part of the decoder's state. On an error they are cleared with the rest of
the vector by `free_diversion_policy`.
-/

namespace NgxPlus.Diversion

open ByteMem Decode Rbtree

/-- What lies in memory behind the terminator of each type name. -/
abbrev Rodata := Nat → Mem

/-- `ngx_http_diversion_conf_ptypes[x].name.data`. -/
def ptypeName (rodata : Rodata) (e : NgxDivConfEnum) : Mem := e.name ++ₛ Stream'.cons 0 (rodata e.value)

def findPtype (rodata : Rodata) (type : Bytes) : Option NgxDivConfEnum :=
  ngxHttpDiversionConfPtypes.reverse.find? fun e => (ptypeName rodata e).take type.length == type

/-! ## One policy -/

structure PolicyHead where
  id : Nat
  type : Bytes
  bitsetId : Nat
  datalen : Nat

/-- `bitsetId` is a `uint8_t`. -/
def readPolicyHead (d : Dec) : Except Rc (PolicyHead × Dec) :=
  let (id, d) := d.readUint32
  if id = ngxUintxError then .error .error
  else do
    let (type, d) ← d.readString
    let (bitsetId, d) := d.readUint16
    let (datalen, d) := d.readUint16
    return (⟨id, type, bitsetId % 2 ^ 8, datalen⟩, d)

def readRange (d : Dec) : Except Rc (DiversionPolicyRange × Dec) :=
  let (start, d) := d.readUint64
  if start = ngxUintxError then .error .error
  else
    let (end_, d) := d.readUint64
    if end_ = ngxUintxError then .error .error
    else .ok (⟨start, end_⟩, d)

/-- Decoder state while policies are read. -/
abbrev PolicyDec := Dec × Option BitVector

/-- A policy's data, of the length its header announced. -/
abbrev DataOf (h : PolicyHead) := {data : PolicyData // data.Fits h.datalen}

theorem fits_dataOf {h : PolicyHead} (data : DataOf h) : data.1.Fits h.datalen := data.2

theorem fits_ranges {h : PolicyHead} (rs : {rs : List DiversionPolicyRange // rs.length = h.datalen}) :
    (PolicyData.ranges rs.1).Fits h.datalen := rs.2

def setNumBits : Nat → Dec → BitVector → BitVector × Dec
  | 0, d, bv => (bv, d)
  | k + 1, d, bv => setNumBits k (d.adv 4) (utilityBitVectorSet bv (utilityMqttReadUint32 d.p))

/-- The copy of `datalen` 32-bit numbers. -/
def readNums (h : PolicyHead) (s : PolicyDec) : Except Rc (DataOf h × PolicyDec) :=
  if h.datalen = 0 then .error .error
  else do
    let d ← s.1.slabAlloc
    return (⟨.nums (d.p.take (4 * h.datalen)), Stream'.length_take _ _⟩, (d.adv (4 * h.datalen), s.2))

def readPolicyData (stype : DivStoreType) (h : PolicyHead) (s : PolicyDec) :
    Except Rc (DataOf h × PolicyDec) :=
  match stype with
  | .range =>
    if h.datalen = 0 then .error .error
    else do
      let d ← s.1.slabAlloc
      let (rs, d) ← times readRange h.datalen d
      return (⟨.ranges rs.1, rs.2⟩, (d, s.2))
  | .bitSet => .ok (⟨.bitVector, trivial⟩, s)
  | .rbtree =>
    if h.bitsetId = 1 then .ok (⟨.bitVector, trivial⟩, s)
    else do
      let d ← s.1.slabAlloc
      let d ← d.slabAlloc
      return (⟨.rbtree .init, trivial⟩, (d, s.2))
  | .numSet =>
    if h.bitsetId = 1 then
      match s.2 with
      | none => if h.datalen = 0 then .ok (⟨.bitVector, trivial⟩, s) else .error .segv
      | some bv =>
        let (bv, d) := setNumBits h.datalen s.1 bv
        .ok (⟨.bitVector, trivial⟩, (d, some bv))
    else readNums h s
  | .suffix => readNums h s
  | .none | .reserved => .error .error

def readPolicy (rodata : Rodata) (s : PolicyDec) : Except Rc (DiversionPolicy × PolicyDec) := do
  let (h, d) ← readPolicyHead s.1
  match findPtype rodata h.type with
  | none => .error .error
  | some conf => do
    let (data, s) ← readPolicyData conf.stype h (d, s.2)
    return (⟨conf.value, h.datalen, h.id, h.bitsetId, data.1, data.2⟩, s)

/-! ## Groups -/

/-- A group refers to the first policy with the id. -/
def readRef (policys : List DiversionPolicy) (d : Dec) : Except Rc (Nat × Dec) :=
  let (num32, d) := d.readUint32
  match policys.findIdx? fun p => p.id == num32 with
  | none => .error .error
  | some k => .ok (k, d)

def readRefs (policys : List DiversionPolicy) (n : Nat) (d : Dec) : Except Rc (List Nat × Dec) := do
  let (refs, d) ← times (readRef policys) n d
  return (refs.1, d)

def readGroup (policys : List DiversionPolicy) (d : Dec) :
    Except Rc (DiversionPolicyGroup × Dec) := do
  let (uri, d) ← d.readString
  let (uri, d) := d.strdup uri
  let (action, d) := d.readUint16
  if action = ngxUintxError then .error .error
  else do
    let (backend, d) ← d.readString
    let (backend, d) := d.strdup backend
    let (text, d) ← d.readString
    let (text, d) := d.strdup text
    let (policyslen, d) := d.readUint16
    if policyslen = ngxUintxError then .error .error
    else do
      let d ← d.slabAlloc
      let (refs, d) ← readRefs policys policyslen d
      return (⟨uri, backend, text, action, refs⟩, d)

/-! ## The message -/

structure PolicyTable where
  policys : List DiversionPolicy
  policyGroup : List DiversionPolicyGroup
  globalBitvector1 : Option BitVector

def readGroups (policys : List DiversionPolicy) (d : Dec) : Except Rc (List DiversionPolicyGroup) :=
  let (len, d) := d.readUint16
  if len = ngxUintxError then .error .error
  else do
    let d ← d.slabAlloc
    let (groups, _) ← times (readGroup policys) len d
    return groups.1

/-- Everything behind the number of policies. -/
def readTable (rodata : Rodata) (len : Nat) (s : PolicyDec) : Except Rc PolicyTable := do
  let d ← s.1.slabAlloc
  let (policys, s) ← times (readPolicy rodata) len (d, s.2)
  let groups ← readGroups policys.1 s.1
  return ⟨policys.1, groups, s.2⟩

def diversionDecodePolicy (rodata : Rodata) (s : Shm) (d : Dec) (ver : Nat) : Rc × Shm :=
  if ver ≠ s.version ∨ s.policyGroup ≠ [] then (.ok, s)
  else
    let (len, d) := d.readUint16
    if len = ngxUintxError then (.error, s)
    else match readTable rodata len (d, s.globalBitvector1) with
      | .ok t =>
        (.ok, { s with
          policys := t.policys
          policyGroup := t.policyGroup
          globalBitvector1 := t.globalBitvector1
          version := ver })
      -- the process dies before any bit is set
      | .error .segv => (.segv, s)
      | .error _ => (.error, freeDiversionPolicy s)

def updatePolicy (rodata : Rodata) (s : Shm) (buf : Bytes) (after : Mem) (slab : Stream' Bool)
    (ver : Nat) : Rc × Shm :=
  diversionDecodePolicy rodata s (.ofBuf buf after slab) ver

/-! ## What a message can do -/

/-- The data is of the kind that the store type and `bitsetId` call for, and a tree is
empty. -/
def FreshData (stype : DivStoreType) (bitsetId : Nat) (data : PolicyData) : Prop :=
  match stype with
  | .range => ∃ rs, data = .ranges rs
  | .bitSet => data = .bitVector
  | .rbtree => if bitsetId = 1 then data = .bitVector else data = .rbtree .init
  | .numSet => if bitsetId = 1 then data = .bitVector else ∃ b, data = .nums b
  | .suffix => ∃ b, data = .nums b
  | .none | .reserved => False

/-- A policy as the decoder leaves it. -/
def Fresh (p : DiversionPolicy) : Prop :=
  p.id ≠ 0 ∧ p.datalen ≤ 65535 ∧ FreshData (confPtype p.type).stype p.bitsetId p.data

/-- Of the policies with its id, `k` is the first. -/
def FirstWithId (policys : List DiversionPolicy) (k : Nat) : Prop :=
  policys.findIdx? (fun p => p.id == (policys.getD k default).id) = some k

/-- Groups are there, each has policies, and all refer into the array. -/
structure PolicyTable.Loaded (t : PolicyTable) : Prop where
  fresh : ∀ p ∈ t.policys, Fresh p
  nonempty : t.policyGroup ≠ []
  refs : ∀ g ∈ t.policyGroup, g.policys ≠ [] ∧ ∀ k ∈ g.policys, k < t.policys.length
  first : ∀ g ∈ t.policyGroup, ∀ k ∈ g.policys, FirstWithId t.policys k

/-- Everything `diversion_decode_policy` can do to the state. -/
inductive PolicyOutcome (s : Shm) (ver : Nat) : Rc → Shm → Prop
  | ignored (h : ver ≠ s.version ∨ s.policyGroup ≠ []) : PolicyOutcome s ver .ok s
  | refused (hv : ver = s.version) (hg : s.policyGroup = []) : PolicyOutcome s ver .error s
  | failed (hv : ver = s.version) (hg : s.policyGroup = []) :
    PolicyOutcome s ver .error (freeDiversionPolicy s)
  | crashed (hv : ver = s.version) (hg : s.policyGroup = []) : PolicyOutcome s ver .segv s
  | loaded (hv : ver = s.version) (hg : s.policyGroup = []) (t : PolicyTable) (ht : t.Loaded)
      (hb : t.globalBitvector1.map BitVector.size = s.globalBitvector1.map BitVector.size) :
    PolicyOutcome s ver .ok { s with
      policys := t.policys
      policyGroup := t.policyGroup
      globalBitvector1 := t.globalBitvector1 }

theorem confPtype_of_mem {e : NgxDivConfEnum} (h : e ∈ ngxHttpDiversionConfPtypes) :
    confPtype e.value = e := by
  revert e; decide

theorem confPtype_findPtype {rodata : Rodata} {type : Bytes} {e : NgxDivConfEnum}
    (h : findPtype rodata type = some e) : confPtype e.value = e :=
  confPtype_of_mem (List.mem_reverse.1 (List.mem_of_find?_eq_some h))

theorem size_setNumBits (n : Nat) (d : Dec) (bv : BitVector) :
    (setNumBits n d bv).1.size = bv.size := by
  induction n generalizing d bv with
  | zero => rfl
  | succ n ih => rw [setNumBits, ih, size_bitVectorSet]

theorem readNums_ok {h : PolicyHead} {s s' : PolicyDec} {data : DataOf h}
    (he : readNums h s = .ok (data, s')) : (∃ b, data.1 = .nums b) ∧ s'.2 = s.2 := by
  unfold readNums at he
  split at he
  · simp at he
  · obtain ⟨d, -, he⟩ := bind_eq_ok.1 he
    obtain ⟨rfl, rfl⟩ := Prod.mk.inj (Except.ok.inj he)
    exact ⟨⟨_, rfl⟩, rfl⟩

theorem readPolicyHead_ok {d d' : Dec} {h : PolicyHead} (he : readPolicyHead d = .ok (h, d')) :
    h.id ≠ 0 ∧ h.datalen ≤ 65535 := by
  simp only [readPolicyHead] at he
  split at he
  · simp at he
  · rename_i hid
    obtain ⟨⟨type, d1⟩, -, he⟩ := bind_eq_ok.1 he
    obtain ⟨rfl, -⟩ := Prod.mk.inj (Except.ok.inj he)
    exact ⟨hid, Dec.readUint16_le _⟩

theorem readPolicyData_ok {stype : DivStoreType} {h : PolicyHead} {s s' : PolicyDec}
    {data : DataOf h} (he : readPolicyData stype h s = .ok (data, s')) :
    FreshData stype h.bitsetId data.1 ∧ s'.2.map BitVector.size = s.2.map BitVector.size := by
  cases stype with
  | none => simp [readPolicyData] at he
  | reserved => simp [readPolicyData] at he
  | suffix =>
    obtain ⟨hb, hs⟩ := readNums_ok he
    exact ⟨hb, by rw [hs]⟩
  | bitSet =>
    obtain ⟨rfl, rfl⟩ := Prod.mk.inj (Except.ok.inj he)
    exact ⟨rfl, rfl⟩
  | range =>
    simp only [readPolicyData] at he
    split at he
    · simp at he
    · obtain ⟨d, -, he⟩ := bind_eq_ok.1 he
      obtain ⟨⟨rs, d1⟩, -, he⟩ := bind_eq_ok.1 he
      obtain ⟨rfl, rfl⟩ := Prod.mk.inj (Except.ok.inj he)
      exact ⟨⟨_, rfl⟩, rfl⟩
  | rbtree =>
    simp only [readPolicyData] at he
    split at he
    · rename_i h1
      obtain ⟨rfl, rfl⟩ := Prod.mk.inj (Except.ok.inj he)
      exact ⟨by simp [FreshData, h1], rfl⟩
    · rename_i h1
      obtain ⟨d, -, he⟩ := bind_eq_ok.1 he
      obtain ⟨d1, -, he⟩ := bind_eq_ok.1 he
      obtain ⟨rfl, rfl⟩ := Prod.mk.inj (Except.ok.inj he)
      exact ⟨by simp [FreshData, h1], rfl⟩
  | numSet =>
    simp only [readPolicyData] at he
    split at he
    · rename_i h1
      cases hb : s.2 with
      | none =>
        simp only [hb] at he
        split at he
        · obtain ⟨rfl, rfl⟩ := Prod.mk.inj (Except.ok.inj he)
          exact ⟨by simp [FreshData, h1], by rw [hb]⟩
        · simp at he
      | some bv =>
        simp only [hb] at he
        obtain ⟨rfl, rfl⟩ := Prod.mk.inj (Except.ok.inj he)
        exact ⟨by simp [FreshData, h1], congrArg some (size_setNumBits _ _ _)⟩
    · rename_i h1
      obtain ⟨hb, hs⟩ := readNums_ok he
      exact ⟨by simpa [FreshData, h1] using hb, by rw [hs]⟩

theorem readPolicy_ok {rodata : Rodata} {s s' : PolicyDec} {p : DiversionPolicy}
    (he : readPolicy rodata s = .ok (p, s')) :
    Fresh p ∧ s'.2.map BitVector.size = s.2.map BitVector.size := by
  obtain ⟨⟨h, d⟩, hh, he⟩ := bind_eq_ok.1 he
  cases hf : findPtype rodata h.type with
  | none => simp [hf] at he
  | some conf =>
    simp only [hf] at he
    obtain ⟨⟨data, s1⟩, hd, he⟩ := bind_eq_ok.1 he
    obtain ⟨rfl, rfl⟩ := Prod.mk.inj (Except.ok.inj he)
    obtain ⟨hid, hlen⟩ := readPolicyHead_ok hh
    obtain ⟨hk, hs⟩ := readPolicyData_ok hd
    refine ⟨⟨hid, hlen, ?_⟩, hs⟩
    simpa only [confPtype_findPtype hf] using hk

theorem readRef_ok {policys : List DiversionPolicy} {d d' : Dec} {k : Nat}
    (he : readRef policys d = .ok (k, d')) : k < policys.length ∧ FirstWithId policys k := by
  simp only [readRef] at he
  split at he
  · simp at he
  · rename_i j hk
    obtain ⟨rfl, -⟩ := Prod.mk.inj (Except.ok.inj he)
    obtain ⟨hlen, hid, -⟩ := List.findIdx?_eq_some_iff_getElem.1 hk
    refine ⟨hlen, ?_⟩
    have hid : (policys.getD j default).id = d.readUint32.1 := by
      rw [List.getD_eq_getElem _ _ hlen]
      simpa using hid
    rw [FirstWithId, hid]
    exact hk

theorem readRefs_ok {policys : List DiversionPolicy} {n : Nat} {d d' : Dec} {ks : List Nat}
    (he : readRefs policys n d = .ok (ks, d')) :
    ks.length = n ∧ ∀ k ∈ ks, k < policys.length ∧ FirstWithId policys k := by
  obtain ⟨⟨refs, d1⟩, hr, he⟩ := bind_eq_ok.1 he
  obtain ⟨rfl, -⟩ := Prod.mk.inj (Except.ok.inj he)
  exact ⟨refs.2, (times_all (I := fun _ => True) (fun _ _ _ _ h => ⟨readRef_ok h, trivial⟩) trivial hr).1⟩

theorem readGroup_ok {policys : List DiversionPolicy} {d d' : Dec} {g : DiversionPolicyGroup}
    (he : readGroup policys d = .ok (g, d')) :
    g.policys ≠ [] ∧ g.policys.length ≤ 65535 ∧
      ∀ k ∈ g.policys, k < policys.length ∧ FirstWithId policys k := by
  obtain ⟨⟨uri, d1⟩, -, he⟩ := bind_eq_ok.1 he
  simp only at he
  split at he
  · simp at he
  · obtain ⟨⟨backend, d2⟩, -, he⟩ := bind_eq_ok.1 he
    obtain ⟨⟨text, d3⟩, -, he⟩ := bind_eq_ok.1 he
    simp only at he
    split at he
    · simp at he
    · rename_i hlen
      obtain ⟨d4, -, he⟩ := bind_eq_ok.1 he
      obtain ⟨⟨refs, d5⟩, hr, he⟩ := bind_eq_ok.1 he
      obtain ⟨rfl, -⟩ := Prod.mk.inj (Except.ok.inj he)
      obtain ⟨hn, hrefs⟩ := readRefs_ok hr
      refine ⟨?_, hn.trans_le (Dec.readUint16_le _), hrefs⟩
      intro h0
      exact hlen (hn.symm.trans (by rw [show refs = [] from h0]; rfl))

theorem readTable_ok {rodata : Rodata} {len : Nat} {s : PolicyDec} {t : PolicyTable}
    (he : readTable rodata len s = .ok t) :
    t.Loaded ∧ t.globalBitvector1.map BitVector.size = s.2.map BitVector.size := by
  obtain ⟨d, -, he⟩ := bind_eq_ok.1 he
  obtain ⟨⟨policys, s1⟩, hp, he⟩ := bind_eq_ok.1 he
  obtain ⟨groups, hg, he⟩ := bind_eq_ok.1 he
  obtain rfl := Except.ok.inj he
  obtain ⟨hfresh, hs⟩ := times_all (f := readPolicy rodata) (s := (d, s.2))
    (I := fun s' : PolicyDec => s'.2.map BitVector.size = s.2.map BitVector.size)
    (fun a p a' hI h => ⟨(readPolicy_ok h).1, (readPolicy_ok h).2.trans hI⟩) rfl hp
  simp only [readGroups] at hg
  split at hg
  · simp at hg
  · rename_i hlen
    obtain ⟨d1, -, hg⟩ := bind_eq_ok.1 hg
    obtain ⟨⟨gs, d2⟩, hgs, hg⟩ := bind_eq_ok.1 hg
    obtain rfl := Except.ok.inj hg
    have hall := (times_all (I := fun _ => True) (fun _ _ _ _ h => ⟨readGroup_ok h, trivial⟩) trivial hgs).1
    refine ⟨⟨hfresh, ?_, ?_, ?_⟩, hs⟩
    · intro h0
      exact hlen (gs.2.symm.trans (by rw [show gs.1 = [] from h0]; rfl))
    · intro g hg
      exact ⟨(hall g hg).1, fun k hk => ((hall g hg).2.2 k hk).1⟩
    · intro g hg k hk
      exact ((hall g hg).2.2 k hk).2

theorem diversionDecodePolicy_outcome (rodata : Rodata) (s : Shm) (d : Dec) (ver : Nat) :
    PolicyOutcome s ver (diversionDecodePolicy rodata s d ver).1
      (diversionDecodePolicy rodata s d ver).2 := by
  unfold diversionDecodePolicy
  split
  · rename_i h
    exact .ignored h
  · rename_i h
    obtain ⟨hv, hg⟩ := not_or.1 h
    have hv := not_ne_iff.1 hv
    have hg := not_ne_iff.1 hg
    subst hv
    simp only
    split
    · exact .refused rfl hg
    · cases ht : readTable rodata d.readUint16.1 (d.readUint16.2, s.globalBitvector1) with
      | ok t => exact .loaded rfl hg t (readTable_ok ht).1 (readTable_ok ht).2
      | error e =>
        cases e with
        | segv => exact .crashed rfl hg
        | ok => exact .failed rfl hg
        | error => exact .failed rfl hg
        | declined => exact .failed rfl hg

end NgxPlus.Diversion
