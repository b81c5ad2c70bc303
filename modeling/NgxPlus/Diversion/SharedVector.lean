import NgxPlus.Diversion.SetStores

/-!
# One vector for many policies

Every policy of type `bitset`, and every set and `ipset` with bitset id 1, is the one vector
`global_bitvector_1`. Three places write it for a policy: `update_numset`, `update_bitvector` and the
decoder, which stores the numbers of an `ipset` as it reads them. `vectorHas_write` says what each
of them puts there; a policy elsewhere in memory is not touched (`policyAt_write`). So two
policies are independent unless both are in the vector (`independent_iff`).

`numbersTaken` reads the numbers off the message: as many pages as references are hit, up to the first
number that is refused.
-/

namespace NgxPlus.Diversion

open ByteMem Decode Rbtree Trace

/-! ## Numbers in a message -/

def numbers : Nat → Dec → List Nat
  | 0, _ => []
  | n + 1, d => d.readUint64.1 :: numbers n d.readUint64.2

def skipNumbers : Nat → Dec → Dec
  | 0, d => d
  | n + 1, d => skipNumbers n d.readUint64.2

def numbersTaken (n : Nat) (d : Dec) : List Nat := (numbers n d).takeWhile numOk

@[simp] theorem numbersTaken_zero (d : Dec) : numbersTaken 0 d = [] := rfl

theorem numbersTaken_succ (n : Nat) (d : Dec) :
    numbersTaken (n + 1) d = if numOk d.readUint64.1 then d.readUint64.1 :: numbersTaken n d.readUint64.2 else [] := by
  rw [numbersTaken, numbers, List.takeWhile_cons]
  rfl

theorem numbersTaken_lt {n v : Nat} {d : Dec} (h : v ∈ numbersTaken n d) : v < 2 ^ 32 := by
  induction n generalizing d with
  | zero => simp at h
  | succ n ih =>
    rw [numbersTaken_succ] at h
    split at h
    · rename_i hok
      rcases List.mem_cons.1 h with rfl | h
      · have hle : d.readUint64.1 ≤ 2 ^ 32 - 1 := (of_decide_eq_true hok).2
        omega
      · exact ih h
    · simp at h

/-- One page into the vector. -/
theorem setNumset_eq (n : Nat) (d : Dec) (bv : BitVector) :
    (setNumset n d bv).1 = (numbers n d).all numOk ∧
      (setNumset n d bv).2.1 = (numbersTaken n d).foldl utilityBitVectorSet bv ∧
      ((setNumset n d bv).1 = true → (setNumset n d bv).2.2 = skipNumbers n d) := by
  induction n generalizing d bv with
  | zero => exact ⟨rfl, rfl, fun _ => rfl⟩
  | succ n ih =>
    rw [numbersTaken_succ, numbers, List.all_cons]
    simp only [setNumset]
    cases hok : numOk d.readUint64.1 with
    | true =>
      obtain ⟨h1, h2, h3⟩ := ih d.readUint64.2 (utilityBitVectorSet bv d.readUint64.1)
      refine ⟨?_, ?_, ?_⟩
      · simpa only [if_true, Bool.true_and] using h1
      · simpa only [if_true, List.foldl_cons] using h2
      · simpa only [if_true, skipNumbers] using h3
    | false => simp

/-- The next page counts if this one was taken whole. -/
theorem numbersTaken_add (m n : Nat) (d : Dec) :
    numbersTaken (m + n) d =
      if (numbers m d).all numOk then numbersTaken m d ++ numbersTaken n (skipNumbers m d) else numbersTaken m d := by
  induction m generalizing d with
  | zero =>
    rw [Nat.zero_add]
    rfl
  | succ m ih =>
    rw [Nat.add_right_comm, numbersTaken_succ, numbersTaken_succ, numbers, List.all_cons, ih]
    cases numOk d.readUint64.1 with
    | true =>
      simp only [if_true, Bool.true_and, skipNumbers]
      split <;> rfl
    | false => simp

/-! ## Walks over the references -/

section Walks

variable {s : Shm} {pid n : Nat} {ks : List Nat}

/-- A set in the vector with the id. -/
def SetHit (s : Shm) (pid k : Nat) : Prop := s.Hit pid k ∧ (s.policyAt k).bitsetId = 1

def BitsetHit (s : Shm) (pid k : Nat) : Prop := s.stypeAt k = .bitSet ∧ (s.policyAt k).id = pid

instance (s : Shm) (pid : Nat) : DecidablePred (SetHit s pid) := fun _ => inferInstanceAs (Decidable (_ ∧ _))

instance (s : Shm) (pid : Nat) : DecidablePred (BitsetHit s pid) := fun _ => inferInstanceAs (Decidable (_ ∧ _))

theorem SameTable.setHit {s s' : Shm} (h : SameTable s s') (pid k : Nat) : SetHit s' pid k ↔ SetHit s pid k := by
  rw [SetHit, h.hit, (h.policy k).bitsetId]
  rfl

theorem SameTable.bitsetHit {s s' : Shm} (h : SameTable s s') (pid k : Nat) : BitsetHit s' pid k ↔ BitsetHit s pid k := by
  rw [BitsetHit, h.stypeAt, (h.policy k).id]
  rfl

/-- A page stored for one reference. -/
theorem vectorHas_putVector (hc : VectorCovers s) {bv : BitVector} (hbv : s.globalBitvector1 = some bv) (k len : Nat)
    (d : Dec) (v : Nat) :
    VectorHas (s.putVector k len (setNumset n d bv).2.1) v ↔ VectorHas s v ∨ v ∈ numbersTaken n d := by
  rw [(setNumset_eq n d bv).2.1, VectorHas, VectorHas, hbv]
  simp only [Shm.putVector, Option.some.injEq, exists_eq_left']
  exact bitVectorGet_foldl (hc bv hbv) (fun w => numbersTaken_lt) v

/-- `c` pages and one in front of them. -/
theorem numbersTaken_pages (c n : Nat) (d : Dec) (bv : BitVector) :
    numbersTaken ((c + 1) * n) d =
      if (setNumset n d bv).1 then numbersTaken n d ++ numbersTaken (c * n) (setNumset n d bv).2.2
      else numbersTaken n d := by
  obtain ⟨h1, -, h3⟩ := setNumset_eq n d bv
  rw [Nat.succ_mul, Nat.add_comm, numbersTaken_add, ← h1]
  split
  · rename_i hok
    rw [h3 hok]
  · rfl

/-- A walk that stores a page and goes on with `c` pages if it was whole, and stops if not. -/
theorem vectorHas_pages (hc : VectorCovers s) {bv : BitVector} (hbv : s.globalBitvector1 = some bv) {k len c : Nat}
    {d : Dec} {v : Nat} {t : Shm}
    (hmore : (setNumset n d bv).1 = true → (VectorHas t v ↔ VectorHas (s.putVector k len (setNumset n d bv).2.1) v ∨
      v ∈ numbersTaken (c * n) (setNumset n d bv).2.2))
    (hstop : (setNumset n d bv).1 = false → t = s.putVector k len (setNumset n d bv).2.1) :
    VectorHas t v ↔ VectorHas s v ∨ s.globalBitvector1.isSome ∧ v ∈ numbersTaken ((c + 1) * n) d := by
  have hput := vectorHas_putVector hc hbv k len (n := n) d v
  rw [numbersTaken_pages _ _ _ bv, hbv]
  cases hok : (setNumset n d bv).1 with
  | true =>
    rw [hmore hok, hput]
    simp only [if_true, Option.isSome_some, true_and, List.mem_append, or_assoc]
  | false =>
    rw [hstop hok, hput]
    simp

theorem SameTable.countP_setHit {s s' : Shm} (h : SameTable s s') (pid : Nat) (ks : List Nat) :
    ks.countP (SetHit s' pid ·) = ks.countP (SetHit s pid ·) :=
  List.countP_congr fun i _ => by simp only [decide_eq_true_eq, h.setHit]

theorem SameTable.countP_bitsetHit {s s' : Shm} (h : SameTable s s') (pid : Nat) (ks : List Nat) :
    ks.countP (BitsetHit s' pid ·) = ks.countP (BitsetHit s pid ·) :=
  List.countP_congr fun i _ => by simp only [decide_eq_true_eq, h.bitsetHit]

/-- What the walk of `update_bitvector` stores. -/
theorem vectorHas_bitvectorRefs (hc : VectorCovers s)
    (hkind : ∀ j ∈ ks, BitsetHit s pid j → (s.policyAt j).data = .bitVector) (d : Dec) (v : Nat) :
    VectorHas (bitvectorRefs pid n ks d s).2 v ↔
      VectorHas s v ∨ s.globalBitvector1.isSome ∧ v ∈ numbersTaken (ks.countP (BitsetHit s pid ·) * n) d := by
  induction ks generalizing s d with
  | nil => simp [bitvectorRefs]
  | cons j ks ih =>
    by_cases hj : BitsetHit s pid j
    · have hd := hkind j List.mem_cons_self hj
      rw [List.countP_cons_of_pos (by simpa using hj)]
      cases hbv : s.globalBitvector1 with
      | none =>
        have hof : s.bitVectorOf (s.policyAt j) = none := by simp [Shm.bitVectorOf, hd, hbv]
        have hstep : bitvectorRefs pid n (j :: ks) d s = (.segv, s) := (if_pos hj).trans (by simp only [hof])
        simp [hstep]
      | some bv =>
        have hof : s.bitVectorOf (s.policyAt j) = some bv := by simp [Shm.bitVectorOf, hd, hbv]
        have hsame := sameTable_putVector hof (size_setNumset n d bv) n
        have hstep : bitvectorRefs pid n (j :: ks) d s =
            if (setNumset n d bv).1 then
              bitvectorRefs pid n ks (setNumset n d bv).2.2 (s.putVector j n (setNumset n d bv).2.1)
            else (.error, s.putVector j n (setNumset n d bv).2.1) := (if_pos hj).trans (by simp only [hof])
        rw [hstep, ← hbv]
        refine vectorHas_pages hc hbv (k := j) (fun hok => ?_) fun hok => by rw [hok]; rfl
        rw [if_pos hok, ih (VectorCovers.of_size hc hsame.frame.size) ?_, hsame.isSome, hsame.countP_bitsetHit, hbv]
        · simp only [Option.isSome_some, true_and]
        · intro i hi hhit
          rw [hsame.bitsetHit] at hhit
          exact (hsame.policy i).vector (hkind i (List.mem_cons_of_mem _ hi) hhit)
    · have hstep : bitvectorRefs pid n (j :: ks) d s = bitvectorRefs pid n ks d s := if_neg hj
      rw [hstep, List.countP_cons_of_neg (by simpa using hj)]
      exact ih hc (fun i hi => hkind i (List.mem_cons_of_mem _ hi)) d

/-- What the walk of `update_numset` stores in the vector. -/
theorem vectorHas_numsetRefs (hc : VectorCovers s)
    (hkind : ∀ j ∈ ks, SetHit s pid j → (s.policyAt j).data = .bitVector)
    (hone : ∀ i ∈ ks, ∀ j ∈ ks, s.Hit pid i → s.Hit pid j → i = j) (d : Dec) (v : Nat) :
    VectorHas (numsetRefs pid n ks d s).2 v ↔
      VectorHas s v ∨ s.globalBitvector1.isSome ∧ v ∈ numbersTaken (ks.countP (SetHit s pid ·) * n) d := by
  induction ks generalizing s d with
  | nil => simp [numsetRefs]
  | cons j ks ih =>
    have hone' := fun i hi k hk => hone i (List.mem_cons_of_mem j hi) k (List.mem_cons_of_mem j hk)
    by_cases hj : s.Hit pid j
    · by_cases hb : (s.policyAt j).bitsetId = 1
      · have hd := hkind j List.mem_cons_self ⟨hj, hb⟩
        rw [List.countP_cons_of_pos (by simpa using ⟨hj, hb⟩)]
        cases hbv : s.globalBitvector1 with
        | none =>
          have hof : s.bitVectorOf (s.policyAt j) = none := by simp [Shm.bitVectorOf, hd, hbv]
          rw [numsetRefs_cons_null hj hb hof]
          simp
        | some bv =>
          have hof : s.bitVectorOf (s.policyAt j) = some bv := by simp [Shm.bitVectorOf, hd, hbv]
          have hsame := sameTable_putVector hof (size_setNumset n d bv) ((s.policyAt j).datalen + n)
          rw [numsetRefs_cons_vector hj hb hof, ← hbv]
          refine vectorHas_pages hc hbv (k := j) (fun hok => ?_) fun hok => by rw [hok]; rfl
          rw [if_pos hok, ih (VectorCovers.of_size hc hsame.frame.size) ?_ ?_, hsame.isSome, hsame.countP_setHit, hbv]
          · simp only [Option.isSome_some, true_and]
          · intro i hi hhit
            rw [hsame.setHit] at hhit
            exact (hsame.policy i).vector (hkind i (List.mem_cons_of_mem _ hi) hhit)
          · intro i hi k hk hhi hhk
            rw [hsame.hit] at hhi hhk
            exact hone' i hi k hk hhi hhk
      · -- the walk ends at a tree, and no other set has the id
        have hcount : (j :: ks).countP (SetHit s pid ·) = 0 := by
          rw [List.countP_eq_zero]
          intro i hi hhit
          have hhit : SetHit s pid i := of_decide_eq_true hhit
          exact hb (hone i hi j List.mem_cons_self hhit.1 hj ▸ hhit.2)
        have hsame : (numsetRefs pid n (j :: ks) d s).2.globalBitvector1 = s.globalBitvector1 := by
          simp only [numsetRefs]
          rw [if_pos ⟨hj.1, hj.2⟩, if_neg hb]
          split <;> rfl
        rw [hcount, VectorHas, hsame]
        simp [VectorHas]
    · have hno : ¬ SetHit s pid j := fun h => hj h.1
      rw [numsetRefs_cons_miss hj, List.countP_cons_of_neg (by simpa using hno)]
      exact ih hc (fun i hi => hkind i (List.mem_cons_of_mem _ hi)) hone' d

end Walks

/-! ## Policies in the decoder -/

def numbers32 : Nat → Dec → List Nat
  | 0, _ => []
  | n + 1, d => utilityMqttReadUint32 d.p :: numbers32 n (d.adv 4)

/-- The numbers that the next policy of the message brings for the vector. -/
def decodedNumbers (rodata : Rodata) (d : Dec) : List Nat :=
  match readPolicyHead d with
  | .error _ => []
  | .ok (h, d) =>
    match findPtype rodata h.type with
    | none => []
    | some conf => if conf.stype = .numSet ∧ h.bitsetId = 1 then numbers32 h.datalen d else []

theorem numbers32_lt {n v : Nat} {d : Dec} (h : v ∈ numbers32 n d) : v < 2 ^ 32 := by
  induction n generalizing d with
  | zero => simp [numbers32] at h
  | succ n ih =>
    rcases List.mem_cons.1 h with rfl | h
    · rw [readUint32_eq_be]
      exact be_lt 4 d.p
    · exact ih h

theorem decodedNumbers_lt {rodata : Rodata} {d : Dec} {v : Nat} (h : v ∈ decodedNumbers rodata d) : v < 2 ^ 32 := by
  rw [decodedNumbers] at h
  split at h
  · simp at h
  · split at h
    · simp at h
    · split at h
      · exact numbers32_lt h
      · simp at h

theorem setNumBits_eq (n : Nat) (d : Dec) (bv : BitVector) :
    (setNumBits n d bv).1 = (numbers32 n d).foldl utilityBitVectorSet bv := by
  induction n generalizing d bv with
  | zero => rfl
  | succ n ih => rw [setNumBits, numbers32, List.foldl_cons, ih]

/-- The vector behind the data of an `ipset` that is in it. -/
theorem readPolicyData_ipset {h : PolicyHead} (hb : h.bitsetId = 1) {d d' : Dec} {v v' : Option BitVector}
    {data : DataOf h} (he : readPolicyData .numSet h (d, v) = .ok (data, (d', v'))) :
    v' = v.map fun bv => (numbers32 h.datalen d).foldl utilityBitVectorSet bv := by
  simp only [readPolicyData, if_pos hb] at he
  cases v with
  | none =>
    simp only at he
    split at he
    · exact (congrArg (fun r => r.2.2) (Except.ok.inj he)).symm
    · simp at he
  | some bv =>
    have he : some (setNumBits h.datalen d bv).1 = v' := congrArg (fun r => r.2.2) (Except.ok.inj he)
    rw [← he, Option.map_some, setNumBits_eq]

/-- No other policy's data goes there. -/
theorem readPolicyData_other {stype : DivStoreType} {h : PolicyHead} (hno : ¬ (stype = .numSet ∧ h.bitsetId = 1))
    {s s' : PolicyDec} {data : DataOf h} (he : readPolicyData stype h s = .ok (data, s')) : s'.2 = s.2 := by
  cases stype with
  | none => simp [readPolicyData] at he
  | reserved => simp [readPolicyData] at he
  | bitSet => exact (congrArg (fun r => r.2.2) (Except.ok.inj he)).symm
  | suffix => exact (readNums_ok he).2
  | numSet =>
    rw [readPolicyData, if_neg fun h1 => hno ⟨rfl, h1⟩] at he
    exact (readNums_ok he).2
  | range =>
    simp only [readPolicyData] at he
    split at he
    · simp at he
    · obtain ⟨d, -, he⟩ := bind_eq_ok.1 he
      obtain ⟨⟨rs, d1⟩, -, he⟩ := bind_eq_ok.1 he
      exact (congrArg (fun r => r.2.2) (Except.ok.inj he)).symm
  | rbtree =>
    simp only [readPolicyData] at he
    split at he
    · exact (congrArg (fun r => r.2.2) (Except.ok.inj he)).symm
    · obtain ⟨d, -, he⟩ := bind_eq_ok.1 he
      obtain ⟨d1, -, he⟩ := bind_eq_ok.1 he
      exact (congrArg (fun r => r.2.2) (Except.ok.inj he)).symm

theorem readPolicy_vector {rodata : Rodata} {d d' : Dec} {v v' : Option BitVector} {p : DiversionPolicy}
    (he : readPolicy rodata (d, v) = .ok (p, (d', v'))) :
    v' = v.map fun bv => (decodedNumbers rodata d).foldl utilityBitVectorSet bv := by
  obtain ⟨⟨h, d1⟩, hh, he⟩ := bind_eq_ok.1 he
  rw [decodedNumbers, hh]
  cases hf : findPtype rodata h.type with
  | none => simp [hf] at he
  | some conf =>
    simp only [hf] at he ⊢
    obtain ⟨⟨data, s1⟩, hd, he⟩ := bind_eq_ok.1 he
    obtain ⟨-, rfl⟩ := Prod.mk.inj (Except.ok.inj he)
    by_cases hset : conf.stype = .numSet ∧ h.bitsetId = 1
    · rw [hset.1] at hd
      simp only [if_pos hset]
      exact readPolicyData_ipset hset.2 hd
    · simp only [if_neg hset, List.foldl_nil]
      obtain rfl : v' = v := readPolicyData_other hset hd
      cases v' <;> rfl

/-- With the vector there, nothing can go wrong with its numbers. -/
theorem decodedNumbers_eq_nil {rodata : Rodata} {d : Dec} {bv : BitVector} {e : Rc}
    (he : readPolicy rodata (d, some bv) = .error e) : decodedNumbers rodata d = [] := by
  rw [decodedNumbers]
  cases hh : readPolicyHead d with
  | error e' => rfl
  | ok r =>
    cases hf : findPtype rodata r.1.type with
    | none => simp only [hf]
    | some conf =>
      simp only [hf, ite_eq_right_iff]
      rintro ⟨hst, hb⟩
      -- head, type and data are there
      rw [readPolicy, hh] at he
      simp only [ok_bind, hf, hst, readPolicyData, if_pos hb] at he
      cases he

/-! ## Writes -/

/-- What writes numbers for a policy. -/
inductive Write
  | numset (buf : Bytes) (after : Mem) (slab : Stream' Bool) (pid ver : Nat)
  | bitvector (buf : Bytes) (after : Mem) (slab : Stream' Bool) (pid ver : Nat)
  /-- `diversion_decode_policy` reads the next policy of its message. -/
  | decode (rodata : Rodata) (d : Dec)

/-- The id of the policy that is written. -/
def Write.pid : Write → Option Nat
  | .numset _ _ _ pid _ => some pid
  | .bitvector _ _ _ pid _ => some pid
  | .decode _ d =>
    match readPolicyHead d with
    | .error _ => none
    | .ok (h, _) => some h.id

def Write.apply (s : Shm) : Write → Shm
  | .numset buf after slab pid ver => (updateNumset s buf after slab pid ver).2
  | .bitvector buf after slab pid ver => (updateBitvector s buf after slab pid ver).2
  | .decode rodata d =>
    match readPolicy rodata (d, s.globalBitvector1) with
    | .error _ => s
    | .ok (_, (_, v)) => { s with globalBitvector1 := v }

/-- The numbers of a page message for the references in `hit`. -/
def pageNumbers (s : Shm) (hit : Nat → Prop) [DecidablePred hit] (buf : Bytes) (after : Mem) (slab : Stream' Bool)
    (ver : Nat) : List Nat :=
  if buf.length ≠ 0 ∧ s.version = ver ∧ s.status = 1 then
    let (n, d) := (Dec.ofBuf buf after slab).readUint32
    numbersTaken (s.refs.countP (hit ·) * n) d
  else []

/-- What a write puts into the vector, read off its input. -/
def Write.vectorNumbers (s : Shm) : Write → List Nat
  | .numset buf after slab pid ver => pageNumbers s (SetHit s pid) buf after slab ver
  | .bitvector buf after slab pid ver => pageNumbers s (BitsetHit s pid) buf after slab ver
  | .decode rodata d => decodedNumbers rodata d

/-- What the decoder guarantees of the groups and the zone of the vector. -/
structure Accepted (s : Shm) : Prop where
  unique : ∀ j ∈ s.refs, ∀ k ∈ s.refs, (s.policyAt j).id = (s.policyAt k).id → j = k
  vector : ∀ k ∈ s.refs, InVector (s.policyAt k) → (s.policyAt k).data = .bitVector
  covers : VectorCovers s

section Writes

variable {s : Shm}

/-- Policies with another id keep what they are. -/
def Keeps (pid : Nat) (s s' : Shm) : Prop := ∀ j, (s.policyAt j).id ≠ pid → s'.policyAt j = s.policyAt j

theorem Keeps.trans {pid : Nat} {a b c : Shm} (h : Keeps pid a b) (h' : Keeps pid b c) : Keeps pid a c := by
  intro j hj
  have hb := h j hj
  rw [h' j (by rwa [hb]), hb]

theorem keeps_putTree {pid k : Nat} (hk : (s.policyAt k).id = pid) (n : Nat) (t : NgxRbtree Nat) :
    Keeps pid s (s.putTree k n t) :=
  fun j hj => policyAt_putTree_of_ne (by rintro rfl; exact hj hk) n t

theorem keeps_putVector {pid k : Nat} (hk : (s.policyAt k).id = pid) (n : Nat) (bv : BitVector) :
    Keeps pid s (s.putVector k n bv) :=
  fun j hj => policyAt_putVector_of_ne (by rintro rfl; exact hj hk) n bv

theorem keeps_updateNumset (s : Shm) (buf : Bytes) (after : Mem) (slab : Stream' Bool) (pid ver : Nat) :
    Keeps pid s (updateNumset s buf after slab pid ver).2 := by
  have hrefl : ∀ s, Keeps pid s s := fun _ _ _ => rfl
  simp only [updateNumset]
  split_ifs
  · exact hrefl s
  · exact hrefl s
  · exact hrefl s
  · exact hrefl s
  · exact numsetRefs_rel hrefl .trans pid _ (fun _ _ len _ t' hk _ => keeps_putTree hk len t')
      (fun _ _ len _ _ hk _ => keeps_putVector hk len _) _ _ _

theorem keeps_updateBitvector (s : Shm) (buf : Bytes) (after : Mem) (slab : Stream' Bool) (pid ver : Nat) :
    Keeps pid s (updateBitvector s buf after slab pid ver).2 := by
  have hrefl : ∀ s, Keeps pid s s := fun _ _ _ => rfl
  simp only [updateBitvector]
  split_ifs
  · exact hrefl s
  · exact hrefl s
  · exact hrefl s
  · exact hrefl s
  · exact hrefl s
  · exact bitvectorRefs_rel hrefl .trans pid _ (fun _ _ len _ _ hk _ => keeps_putVector hk len _) _ _ _

theorem policyAt_write (s : Shm) (w : Write) {j : Nat} (hid : w.pid ≠ some (s.policyAt j).id) :
    (w.apply s).policyAt j = s.policyAt j := by
  cases w with
  | numset buf after slab pid ver => exact keeps_updateNumset s buf after slab pid ver j fun h => hid (congrArg some h.symm)
  | bitvector buf after slab pid ver =>
    exact keeps_updateBitvector s buf after slab pid ver j fun h => hid (congrArg some h.symm)
  | decode rodata d =>
    rw [Write.apply]
    split <;> rfl

/-- A call that is not for this table. -/
theorem refused_snd {buf : Bytes} {ver : Nat} (h : ¬ (buf.length ≠ 0 ∧ s.version = ver ∧ s.status = 1)) (r : Rc × Shm) :
    (if buf.length = 0 then (Rc.error, s) else if s.version ≠ ver then (.error, s)
      else if s.status ≠ 1 then (.error, s) else r).2 = s := by
  split_ifs with h1 h2 h3
  · rfl
  · rfl
  · rfl
  · exact absurd ⟨h1, not_not.1 h2, not_not.1 h3⟩ h

theorem vectorHas_write (hs : Accepted s) (w : Write) (v : Nat) :
    VectorHas (w.apply s) v ↔ VectorHas s v ∨ s.globalBitvector1.isSome ∧ v ∈ w.vectorNumbers s := by
  cases w with
  | numset buf after slab pid ver =>
    rw [Write.apply, Write.vectorNumbers, pageNumbers, updateNumset]
    by_cases hguard : buf.length ≠ 0 ∧ s.version = ver ∧ s.status = 1
    · rw [if_pos hguard, if_neg hguard.1, if_neg (not_not.2 hguard.2.1), if_neg (not_not.2 hguard.2.2)]
      simp only
      split
      · rename_i h0
        rw [show (Dec.readUint32 (.ofBuf buf after slab)).1 = 0 from h0, Nat.mul_zero]
        simp
      · exact vectorHas_numsetRefs hs.covers (fun j hj hhit => hs.vector j hj (Or.inr ⟨Or.inl hhit.1.1, hhit.2⟩))
          (fun i hi j hj hi' hj' => hs.unique i hi j hj (hi'.2.trans hj'.2.symm)) _ v
    · rw [if_neg hguard, refused_snd hguard]
      simp
  | bitvector buf after slab pid ver =>
    rw [Write.apply, Write.vectorNumbers, pageNumbers, updateBitvector]
    cases hv : s.globalBitvector1 with
    | none => simp
    | some bv =>
      simp only [Option.isNone_some, Bool.false_eq_true, if_false]
      by_cases hguard : buf.length ≠ 0 ∧ s.version = ver ∧ s.status = 1
      · rw [if_pos hguard, if_neg hguard.1, if_neg (not_not.2 hguard.2.1), if_neg (not_not.2 hguard.2.2)]
        split
        · rename_i h0
          rw [show (Dec.readUint32 (.ofBuf buf after slab)).1 = 0 from h0, Nat.mul_zero]
          simp
        · rw [← hv]
          exact vectorHas_bitvectorRefs hs.covers (fun j hj hhit => hs.vector j hj (Or.inl hhit.1)) _ v
      · rw [if_neg hguard, refused_snd hguard]
        simp
  | decode rodata d =>
    rw [Write.apply, Write.vectorNumbers]
    cases hv : s.globalBitvector1 with
    | none =>
      split
      · simp
      · rename_i p d' v' he
        obtain rfl : v' = none := readPolicy_vector he
        simp [VectorHas, hv]
    | some bv =>
      split
      · rename_i e he
        simp [decodedNumbers_eq_nil he]
      · rename_i p d' v' he
        rw [readPolicy_vector he, VectorHas, VectorHas, hv]
        simp only [Option.map_some, Option.some.injEq, exists_eq_left', Option.isSome_some, true_and]
        exact bitVectorGet_foldl (hs.covers bv hv) (fun w => decodedNumbers_lt) v

/-! ## Independence -/

/-- The answer of the policy at `j`, to every user. -/
def SameAnswers (s s' : Shm) (j : Nat) : Prop :=
  ∀ u, policyVerdict s' u (s'.policyAt j) = .pass ↔ policyVerdict s u (s.policyAt j) = .pass

/-- The policy is the vector. -/
def UsesVector (p : DiversionPolicy) : Prop := InVector p ∧ p.data = .bitVector

theorem policyVerdict_vector {p : DiversionPolicy} (h : UsesVector p) (s : Shm) (u : DivUserInfo) :
    policyVerdict s u p = .pass ↔ userValue u p ≠ 0 ∧ VectorHas s (userValue u p) := by
  have hof : s.bitVectorOf p = s.globalBitvector1 := by rw [Shm.bitVectorOf, h.2]
  rw [policyVerdict_pass_iff, Lets, searchStore, if_pos h.1, hof, VectorHas]
  have hn : ¬ NoStore p := by
    rintro (hn | hn) <;> rcases h.1 with hb | ⟨hb | hb, -⟩ <;> simp [hn] at hb
  cases s.globalBitvector1 <;> simp [hn]

/-- Elsewhere, the answer does not depend on the vector. -/
theorem policyVerdict_elsewhere {p : DiversionPolicy} (h : ¬ UsesVector p) (s s' : Shm) (u : DivUserInfo) :
    policyVerdict s' u p = policyVerdict s u p := by
  by_cases hin : InVector p
  · have hof : s'.bitVectorOf p = s.bitVectorOf p := by
      rw [Shm.bitVectorOf, Shm.bitVectorOf]
      split
      · rename_i hd
        exact absurd ⟨hin, hd⟩ h
      · rfl
    simp only [policyVerdict, hof]
  · have hnull : ∀ s, ¬ NullVector s p := fun s h => hin h.1
    rw [policyVerdict_eq_search, policyVerdict_eq_search]
    simp only [hnull, searchStore, hin, if_false]

/-- **Two policies are independent** unless both are in the vector: a write for one changes the
answers of the other exactly when that one is the vector and a number that is written is new to it. -/
theorem independent_iff (hs : Accepted s) (w : Write) {j : Nat} (hid : w.pid ≠ some (s.policyAt j).id) :
    SameAnswers s (w.apply s) j ↔
      (UsesVector (s.policyAt j) → s.globalBitvector1.isSome → ∀ v ∈ w.vectorNumbers s, v ≠ 0 → VectorHas s v) := by
  rw [SameAnswers, policyAt_write s w hid]
  by_cases hv : UsesVector (s.policyAt j)
  · simp only [policyVerdict_vector hv, vectorHas_write hs w, hv, true_implies]
    constructor
    · intro hall hsome v hmem hne
      have hu : userValue (sameUser v) (s.policyAt j) = v := setValue_sameUser s j v
      have h := (hall (sameUser v)).1 (by rw [hu]; exact ⟨hne, Or.inr ⟨hsome, hmem⟩⟩)
      rw [hu] at h
      exact h.2
    · intro hall u
      refine and_congr_right fun hne => ⟨?_, Or.inl⟩
      rintro (h | ⟨hsome, hmem⟩)
      · exact h
      · exact hall hsome _ hmem hne
  · simp only [hv, false_implies, iff_true]
    intro u
    rw [policyVerdict_elsewhere hv s]

end Writes

/-! ## Every state of a run is accepted -/

section Reached

variable {s s' : Shm}

theorem Accepted.of_same (h : Accepted s) (hs : SameTable s s') : Accepted s' := by
  refine ⟨?_, ?_, VectorCovers.of_size h.covers hs.frame.size⟩
  · intro j hj k hk he
    rw [hs.refs] at hj hk
    rw [(hs.policy j).id, (hs.policy k).id] at he
    exact h.unique j hj k hk he
  · intro k hk hin
    rw [hs.refs] at hk
    rw [InVector, (hs.policy k).type, (hs.policy k).bitsetId] at hin
    exact (hs.policy k).vector (h.vector k hk hin)

/-- Nothing is asked of the groups that are not there. -/
theorem accepted_of_nil (hg : s.policyGroup = []) (hc : VectorCovers s) : Accepted s := by
  have hno : s.refs = [] := refs_nil hg
  refine ⟨fun j hj => ?_, fun k hk => ?_, hc⟩
  · simp [hno] at hj
  · simp [hno] at hk

theorem accepted_of_loaded {t : PolicyTable} (ht : t.Loaded) (hc : VectorCovers (s.withTable t)) :
    Accepted (s.withTable t) := by
  have htable := setTable_of_loaded (s := s) ht
  refine ⟨htable.unique, fun k hk hin => ?_, hc⟩
  obtain ⟨-, -, hd⟩ := fresh_policyAt (s := s) ht (htable.bound k hk)
  rcases hin with hst | ⟨hst | hst, hb⟩
  · rwa [hst] at hd
  · rw [hst] at hd
    simpa only [FreshData, if_pos hb] using hd
  · rw [hst] at hd
    simpa only [FreshData, if_pos hb] using hd

/-- Groups and policies are the same. -/
theorem Accepted.of_eq (h : Accepted s) (hg : s'.policyGroup = s.policyGroup) (hp : s'.policys = s.policys)
    (hc : VectorCovers s') : Accepted s' := by
  have hrefs : s'.refs = s.refs := by rw [Shm.refs, hg, Shm.refs]
  have hat : ∀ k, s'.policyAt k = s.policyAt k := fun k => by rw [Shm.policyAt, hp, Shm.policyAt]
  refine ⟨?_, ?_, hc⟩
  · intro j hj k hk he
    rw [hrefs] at hj hk
    rw [hat, hat] at he
    exact h.unique j hj k hk he
  · intro k hk hin
    rw [hrefs] at hk
    rw [hat] at hin ⊢
    exact h.vector k hk hin

theorem RuntimeOutcome.table {m : Dec} {rc : Rc} (h : RuntimeOutcome s m rc s') :
    s'.policyGroup = [] ∨ s'.policyGroup = s.policyGroup ∧ s'.policys = s.policys := by
  have hroom : (makeRoom s).policyGroup = [] ∨
      (makeRoom s).policyGroup = s.policyGroup ∧ (makeRoom s).policys = s.policys := by
    rw [makeRoom]
    split
    · exact Or.inl rfl
    · exact Or.inr ⟨rfl, rfl⟩
  cases h with
  | same | refused | declined => exact Or.inr ⟨rfl, rfl⟩
  | failed => exact hroom
  | installed => exact hroom

/-- What a call does to groups and policies. -/
inductive TableStep (s : Shm) : Shm → Prop
  | kept {s' : Shm} (hg : s'.policyGroup = s.policyGroup) (hp : s'.policys = s.policys) : TableStep s s'
  | emptied {s' : Shm} (hg : s'.policyGroup = []) : TableStep s s'
  | updated {s' : Shm} (h : SameTable s s') : TableStep s s'
  | loaded (t : PolicyTable) (ht : t.Loaded) : TableStep s (s.withTable t)

theorem tableStep (s : Shm) (c : Call) : TableStep s (step s c) := by
  cases c with
  | updateRuntimeinfo lock buf after slab =>
    rcases updateRuntimeinfo_cases { s with lock := lock } buf after slab with ⟨-, he⟩ | ⟨-, ho⟩
    · exact .kept (congrArg (fun r => r.2.policyGroup) he) (congrArg (fun r => r.2.policys) he)
    · rcases ho.table with hg | ⟨hg, hp⟩
      · exact .emptied hg
      · exact .kept hg hp
  | updatePolicy rodata buf after slab ver =>
    have ho := diversionDecodePolicy_outcome rodata s (.ofBuf buf after slab) ver
    rw [step, exec, updatePolicy]
    generalize (diversionDecodePolicy rodata s (.ofBuf buf after slab) ver).2 = s' at ho ⊢
    generalize (diversionDecodePolicy rodata s (.ofBuf buf after slab) ver).1 = rc at ho
    cases ho with
    | ignored | refused | crashed => exact .kept rfl rfl
    | failed => exact .emptied rfl
    | loaded _ _ t ht => exact .loaded t ht
  | updateNumset buf after slab pid ver => exact .updated (updateNumset_sameTable s buf after slab pid ver)
  | updateBitvector buf after slab pid ver => exact .updated (updateBitvector_sameTable s buf after slab pid ver)
  | activePolicy ver =>
    rcases activePolicy_cases s ver with he | ⟨-, -, he⟩
    · exact .kept (congrArg (fun r => r.2.policyGroup) he) (congrArg (fun r => r.2.policys) he)
    · exact .kept (congrArg (fun r => r.2.policyGroup) he) (congrArg (fun r => r.2.policys) he)

theorem accepted_step (h : Accepted s) (c : Call) : Accepted (step s c) := by
  have hc : VectorCovers (step s c) := VectorCovers.of_size h.covers (vectorSize_step s c)
  have ht := tableStep s c
  generalize step s c = s' at hc ht ⊢
  cases ht with
  | kept hg hp => exact h.of_eq hg hp hc
  | emptied hg => exact accepted_of_nil hg hc
  | updated hs => exact h.of_same hs
  | loaded t ht => exact accepted_of_loaded ht hc

theorem accepted_run (hasBitset : Bool) (cs : List Call) : Accepted (run step (initialState hasBitset) cs) :=
  run_inv step (I := Accepted) (C := fun _ _ => True) (fun _ c h _ => accepted_step h c)
    (accepted_of_nil rfl (sound_initialState hasBitset).covers) (always_of_forall step (fun _ _ => trivial) _ cs)

end Reached

/-- Set 4, in the vector or a tree, and set 5, in the vector; one group refers to both. -/
def twoSets (bitsetId : Nat) (data : PolicyData) (fits : data.Fits 0) : Shm :=
  { initialState true with
    status := 1
    policyGroup := [⟨.of (ascii ['/']), .of [], .of [], 1, [0, 1]⟩]
    policys := [⟨3, 0, 4, bitsetId, data, fits⟩, ⟨6, 0, 5, 1, .bitVector, trivial⟩] }

theorem accepted_twoSets (bitsetId : Nat) (data : PolicyData) (fits : data.Fits 0)
    (hd : bitsetId = 1 → data = .bitVector) : Accepted (twoSets bitsetId data fits) := by
  refine ⟨?_, ?_, (sound_initialState true).covers⟩
  · intro j hj k hk he
    simp only [Shm.refs, twoSets, List.flatMap_cons, List.flatMap_nil, List.append_nil, List.mem_cons,
      List.not_mem_nil, or_false] at hj hk
    rcases hj with rfl | rfl <;> rcases hk with rfl | rfl <;> simp [Shm.policyAt, twoSets] at he ⊢
  · intro k hk hin
    simp only [Shm.refs, twoSets, List.flatMap_cons, List.flatMap_nil, List.append_nil, List.mem_cons,
      List.not_mem_nil, or_false] at hk
    rcases hk with rfl | rfl
    · rcases hin with hst | ⟨-, hb⟩
      · exact absurd (show (confPtype 3).stype = .bitSet from hst) (by decide)
      · exact hd hb
    · rfl

/-- The number 7 for set 4. -/
def sevenForFour : Write := .numset (pageBytes [7]) (Stream'.const 0) (Stream'.const true) 4 0

theorem independent_tree :
    SameAnswers (twoSets 0 (.rbtree .init) trivial) (sevenForFour.apply (twoSets 0 (.rbtree .init) trivial)) 1 := by
  refine (independent_iff (accepted_twoSets 0 (.rbtree .init) trivial (by simp)) sevenForFour (by decide)).2 ?_
  intro _ _ v hv
  have hno : sevenForFour.vectorNumbers (twoSets 0 (.rbtree .init) trivial) = [] := by decide +kernel
  simp [hno] at hv

/-- In the vector, 7 is let through by set 5 as well. -/
theorem dependent_vector :
    (Accepted (twoSets 1 .bitVector trivial) ∧ sevenForFour.pid ≠ some ((twoSets 1 .bitVector trivial).policyAt 1).id) ∧
      ¬ SameAnswers (twoSets 1 .bitVector trivial) (sevenForFour.apply (twoSets 1 .bitVector trivial)) 1 := by
  refine ⟨⟨accepted_twoSets 1 .bitVector trivial fun _ => rfl, by decide⟩, fun h => ?_⟩
  have hpass := (h (sameUser 7)).1 (by decide +kernel)
  exact absurd hpass (by decide +kernel)

end NgxPlus.Diversion
