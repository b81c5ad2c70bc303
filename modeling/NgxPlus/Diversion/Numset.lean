import NgxPlus.Diversion.Policy

/-!
# Number sets and activation (`ngx_lua_diversion_module.cpp:839-1128`)

| here | there |
| --- | --- |
| `Shm.refs`                  | the double loop over groups and their policies |
| `setNumset`, `insertNumset` | the loops over the numbers of a page |
| `numsetRefs`, `updateNumset` | `update_numset` (`.cpp:895-1012`) |
| `bitvectorRefs`, `updateBitvector` | `update_bitvector` (`.cpp:1014-1098`) |
| `getPolicyid`               | `get_policyid` (`.cpp:839-893`) |
| `activePolicy`              | `active_policy` (`.cpp:1100-1128`) |

Both update functions walk all references. `update_numset` returns at the first tree with
the id; behind a bit-backed policy it goes on (`break` leaves the `switch` only) with `p`
where the numbers ended, so that a second reference to the policy reads another `datalen`
numbers from behind the page.

A number that is refused stays refused after the ones before it were stored: a failed
page is partly loaded.
-/

namespace NgxPlus.Diversion

open ByteMem Decode Rbtree

/-- All references from groups to policies, in loop order. -/
def Shm.refs (s : Shm) : List Nat := s.policyGroup.flatMap DiversionPolicyGroup.policys

def Shm.stypeAt (s : Shm) (k : Nat) : DivStoreType := (confPtype (s.policyAt k).type).stype

/-- `!(num == NGX_UINTX_ERROR || num > UINT_MAX)`. -/
def numOk (num : Nat) : Bool := num ≠ ngxUintxError ∧ num ≤ uintMax

/-- `datalen` numbers into the vector; `false` if one is refused. -/
def setNumset : Nat → Dec → BitVector → Bool × BitVector × Dec
  | 0, d, bv => (true, bv, d)
  | n + 1, d, bv =>
    let (num, d') := d.readUint64
    if numOk num then setNumset n d' (utilityBitVectorSet bv num) else (false, bv, d)

/-- `datalen` numbers into the tree; `false` if one is refused or has no memory. -/
def insertNumset : Nat → Dec → NgxRbtree Nat → Bool × NgxRbtree Nat
  | 0, _, t => (true, t)
  | n + 1, d, t =>
    let (num, d) := d.readUint64
    if numOk num then
      match d.slabAlloc with
      | .ok d => insertNumset n d (ngxRbtreeInsert t num)
      | .error _ => (false, t)
    else (false, t)

def rcOf (ok : Bool) : Rc := if ok then .ok else .error

/-- Store a tree back; `policy->datalen` is a `uint32_t`. -/
def Shm.putTree (s : Shm) (k datalen : Nat) (t : NgxRbtree Nat) : Shm :=
  { s with policys := s.policys.modify k fun p =>
      { p with datalen := datalen % 2 ^ 32, data := .rbtree t, fits := trivial } }

def Shm.putVector (s : Shm) (k datalen : Nat) (bv : BitVector) : Shm :=
  { s with
    globalBitvector1 := some bv
    policys := s.policys.modify k fun p =>
      { p with datalen := datalen % 2 ^ 32, data := .bitVector, fits := trivial } }

/-- A tree-stored policy whose data is no tree cannot be loaded (`Fresh`). -/
def numsetRefs (pid datalen : Nat) : List Nat → Dec → Shm → Rc × Shm
  | [], _, s => (.ok, s)
  | k :: ks, d, s =>
    let policy := s.policyAt k
    if s.stypeAt k = .rbtree ∧ policy.id = pid then
      if policy.bitsetId = 1 then
        match s.bitVectorOf policy with
        | none => (.error, s)
        | some bv =>
          let (ok, bv, d) := setNumset datalen d bv
          let s := s.putVector k (policy.datalen + datalen) bv
          if ok then numsetRefs pid datalen ks d s else (.error, s)
      else match policy.data with
        | .rbtree t =>
          let (ok, t) := insertNumset datalen d t
          (rcOf ok, s.putTree k (policy.datalen + datalen) t)
        | _ => (.segv, s)
    else numsetRefs pid datalen ks d s

def updateNumset (s : Shm) (buf : Bytes) (after : Mem) (slab : Stream' Bool) (pid ver : Nat) :
    Rc × Shm :=
  if buf.length = 0 then (.error, s)
  else if s.version ≠ ver then (.error, s)
  else if s.status ≠ 1 then (.error, s)
  else
    let (datalen, d) := (Dec.ofBuf buf after slab).readUint32
    if datalen = ngxUintxError then (.error, s) else numsetRefs pid datalen s.refs d s

def bitvectorRefs (pid datalen : Nat) : List Nat → Dec → Shm → Rc × Shm
  | [], _, s => (.ok, s)
  | k :: ks, d, s =>
    let policy := s.policyAt k
    if s.stypeAt k = .bitSet ∧ policy.id = pid then
      match s.bitVectorOf policy with
      | none => (.segv, s)
      | some bv =>
        let (ok, bv, d) := setNumset datalen d bv
        let s := s.putVector k datalen bv
        if ok then bitvectorRefs pid datalen ks d s else (.error, s)
    else bitvectorRefs pid datalen ks d s

/-- Without `diversion_bitset_shm` the function is not in the Lua table. -/
def updateBitvector (s : Shm) (buf : Bytes) (after : Mem) (slab : Stream' Bool) (pid ver : Nat) :
    Rc × Shm :=
  if s.globalBitvector1.isNone then (.error, s)
  else if buf.length = 0 then (.error, s)
  else if s.version ≠ ver then (.error, s)
  else if s.status ≠ 1 then (.error, s)
  else
    let (datalen, d) := (Dec.ofBuf buf after slab).readUint32
    if datalen = ngxUintxError then (.error, s) else bitvectorRefs pid datalen s.refs d s

/-- The ids of the tree-stored policies, once for each reference. -/
def getPolicyid (s : Shm) (ver : Nat) : Except Rc (List Nat) :=
  if s.status ≠ 1 then .error .error
  else if ver ≠ s.version then .error .error
  else .ok ((s.refs.filter fun k => s.stypeAt k = .rbtree).map fun k => (s.policyAt k).id)

def activePolicy (s : Shm) (ver : Nat) : Rc × Shm :=
  if s.status ≠ 1 ∨ s.version ≠ ver then (.error, s) else (.ok, { s with status := 2 })

/-! ## What the calls leave alone -/

/-- Only policies and the vector may differ. -/
structure SameButNumbers (s s' : Shm) : Prop where
  status : s'.status = s.status
  version : s'.version = s.version
  policyGroup : s'.policyGroup = s.policyGroup
  lock : s'.lock = s.lock
  length : s'.policys.length = s.policys.length
  size : s'.globalBitvector1.map BitVector.size = s.globalBitvector1.map BitVector.size

theorem SameButNumbers.refl (s : Shm) : SameButNumbers s s := ⟨rfl, rfl, rfl, rfl, rfl, rfl⟩

theorem SameButNumbers.trans {a b c : Shm} (h : SameButNumbers a b) (h' : SameButNumbers b c) :
    SameButNumbers a c :=
  ⟨h'.status.trans h.status, h'.version.trans h.version, h'.policyGroup.trans h.policyGroup,
    h'.lock.trans h.lock, h'.length.trans h.length, h'.size.trans h.size⟩

theorem size_setNumset (n : Nat) (d : Dec) (bv : BitVector) :
    (setNumset n d bv).2.1.size = bv.size := by
  induction n generalizing d bv with
  | zero => rfl
  | succ n ih =>
    simp only [setNumset]
    split
    · rw [ih, size_bitVectorSet]
    · rfl

theorem sameButNumbers_putTree (s : Shm) (k n : Nat) (t : NgxRbtree Nat) :
    SameButNumbers s (s.putTree k n t) :=
  ⟨rfl, rfl, rfl, rfl, List.length_modify _ _ _, rfl⟩

theorem bitVectorOf_eq_some {s : Shm} {p : DiversionPolicy} {bv : BitVector}
    (h : s.bitVectorOf p = some bv) : p.data = .bitVector ∧ s.globalBitvector1 = some bv := by
  unfold Shm.bitVectorOf at h
  split at h
  · exact ⟨‹_›, h⟩
  · simp at h

theorem sameButNumbers_putVector {s : Shm} {p : DiversionPolicy} {bv bv' : BitVector}
    (h : s.bitVectorOf p = some bv) (hs : bv'.size = bv.size) (k n : Nat) :
    SameButNumbers s (s.putVector k n bv') := by
  refine ⟨rfl, rfl, rfl, rfl, List.length_modify _ _ _, ?_⟩
  rw [(bitVectorOf_eq_some h).2]
  exact congrArg some hs

/-- What each store into a set brings, the walk over the references brings. -/
theorem numsetRefs_rel {R : Shm → Shm → Prop} (hrefl : ∀ s, R s s)
    (htrans : ∀ {a b c}, R a b → R b c → R a c)
    (pid n : Nat) (htree : ∀ s k len t t', (s.policyAt k).id = pid → (s.policyAt k).data = .rbtree t →
      R s (s.putTree k len t'))
    (hvec : ∀ s k len d bv, (s.policyAt k).id = pid → s.bitVectorOf (s.policyAt k) = some bv →
      R s (s.putVector k len (setNumset n d bv).2.1))
    (ks : List Nat) (d : Dec) (s : Shm) : R s (numsetRefs pid n ks d s).2 := by
  induction ks generalizing d s with
  | nil => exact hrefl s
  | cons k ks ih =>
    simp only [numsetRefs]
    split
    · rename_i hhit
      split
      · split
        · exact hrefl s
        · rename_i bv hbv
          have hput := hvec s k ((s.policyAt k).datalen + n) d bv hhit.2 hbv
          split
          · exact htrans hput (ih _ _)
          · exact hput
      · split
        · rename_i t ht
          exact htree s k _ t _ hhit.2 ht
        · exact hrefl s
    · exact ih d s

/-- The same of the other walk, which stores into the vector only. -/
theorem bitvectorRefs_rel {R : Shm → Shm → Prop} (hrefl : ∀ s, R s s)
    (htrans : ∀ {a b c}, R a b → R b c → R a c)
    (pid n : Nat)
    (hvec : ∀ s k len d bv, (s.policyAt k).id = pid → s.bitVectorOf (s.policyAt k) = some bv →
      R s (s.putVector k len (setNumset n d bv).2.1))
    (ks : List Nat) (d : Dec) (s : Shm) : R s (bitvectorRefs pid n ks d s).2 := by
  induction ks generalizing d s with
  | nil => exact hrefl s
  | cons k ks ih =>
    simp only [bitvectorRefs]
    split
    · rename_i hhit
      split
      · exact hrefl s
      · rename_i bv hbv
        have hput := hvec s k n d bv hhit.2 hbv
        split
        · exact htrans hput (ih _ _)
        · exact hput
    · exact ih d s

theorem numsetRefs_frame (pid n : Nat) (ks : List Nat) (d : Dec) (s : Shm) :
    SameButNumbers s (numsetRefs pid n ks d s).2 :=
  numsetRefs_rel .refl .trans pid n (fun s k len _ t' _ _ => sameButNumbers_putTree s k len t')
    (fun _ k len d bv _ hbv => sameButNumbers_putVector hbv (size_setNumset n d bv) k len) ks d s

theorem bitvectorRefs_frame (pid n : Nat) (ks : List Nat) (d : Dec) (s : Shm) :
    SameButNumbers s (bitvectorRefs pid n ks d s).2 :=
  bitvectorRefs_rel .refl .trans pid n
    (fun _ k len d bv _ hbv => sameButNumbers_putVector hbv (size_setNumset n d bv) k len) ks d s

/-- A call for another version, or outside status 1, does nothing. -/
theorem updateNumset_cases (s : Shm) (buf : Bytes) (after : Mem) (slab : Stream' Bool) (pid ver : Nat) :
    (updateNumset s buf after slab pid ver).2 = s ∨
    s.version = ver ∧ s.status = 1 ∧ SameButNumbers s (updateNumset s buf after slab pid ver).2 := by
  by_cases hv : s.version = ver
  · by_cases h1 : s.status = 1
    · refine Or.inr ⟨hv, h1, ?_⟩
      simp only [updateNumset, hv, h1, ne_eq, not_true_eq_false, if_false]
      split
      · exact .refl s
      · split
        · exact .refl s
        · exact numsetRefs_frame _ _ _ _ _
    · exact Or.inl (by simp [updateNumset, h1])
  · exact Or.inl (by simp [updateNumset, hv])

theorem updateBitvector_cases (s : Shm) (buf : Bytes) (after : Mem) (slab : Stream' Bool)
    (pid ver : Nat) :
    (updateBitvector s buf after slab pid ver).2 = s ∨
    s.version = ver ∧ s.status = 1 ∧ SameButNumbers s (updateBitvector s buf after slab pid ver).2 := by
  by_cases hv : s.version = ver
  · by_cases h1 : s.status = 1
    · refine Or.inr ⟨hv, h1, ?_⟩
      simp only [updateBitvector, hv, h1, ne_eq, not_true_eq_false, if_false]
      split
      · exact .refl s
      · split
        · exact .refl s
        · split
          · exact .refl s
          · exact bitvectorRefs_frame _ _ _ _ _
    · exact Or.inl (by simp [updateBitvector, h1])
  · exact Or.inl (by simp [updateBitvector, hv])

end NgxPlus.Diversion
