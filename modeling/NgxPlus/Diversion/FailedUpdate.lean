import NgxPlus.Diversion.SharedVector

/-!
# Updates of numbers that fail (`ngx_lua_diversion_module.cpp:941-1012`, `:1064-1098`)

`update_numset` and `update_bitvector` write `datalen` before the first number of a page is read, and
each number before the next one is looked at. So an update that fails behind its guards has left
its mark, up to cases that need the right numbers: `update_bitvector` sets `datalen`, and a page of as
many numbers as before, all of them in the vector up to the bad one, is refused without a trace
(`BitvectorAlone`); `update_numset` adds to it, and a trace is missing only where the sum wraps
(`NumsetAlone`).

In an accepted table one policy has the id, so a walk over the references is a number of pages for
that policy (`storePages`).
-/

namespace NgxPlus.Diversion

open ByteMem Decode Rbtree Trace

/-! ## The property -/

/-- The policy at `k` has the members it had. -/
def SameMembers (s s' : Shm) (k : Nat) : Prop :=
  match (s.policyAt k).data, (s'.policyAt k).data with
  | .bitVector, .bitVector => ∀ v, VectorHas s' v ↔ VectorHas s v
  | .rbtree t, .rbtree t' => ∀ v, v ∈ t'.keys ↔ v ∈ t.keys
  | data, data' => data' = data

/-- The sets are left alone. -/
structure SetsAlone (s s' : Shm) : Prop where
  datalen : ∀ k, (s'.policyAt k).datalen = (s.policyAt k).datalen
  members : ∀ k, SameMembers s s' k

/-- A policy that was not written has its members, if the vector has its numbers. -/
theorem sameMembers_of_eq {s s' : Shm} {k : Nat} (hp : s'.policyAt k = s.policyAt k)
    (hv : ∀ v, VectorHas s' v ↔ VectorHas s v) : SameMembers s s' k := by
  rw [SameMembers, hp]
  split
  · exact hv
  · rename_i h h'
    obtain rfl := PolicyData.rbtree.inj (h.symm.trans h')
    exact fun _ => Iff.rfl
  · rfl

theorem SetsAlone.refl (s : Shm) : SetsAlone s s :=
  ⟨fun _ => rfl, fun _ => sameMembers_of_eq rfl fun _ => Iff.rfl⟩

/-! ## Pages for one policy -/

/-- `c` pages of `n` numbers for the policy at `k`; `len` is what each makes of `datalen`. -/
def storePages (k : Nat) (len : Nat → Nat) (n : Nat) : Nat → Dec → BitVector → Shm → Rc × Shm
  | 0, _, _, s => (.ok, s)
  | c + 1, d, bv, s =>
    let (ok, bv, d) := setNumset n d bv
    let s := s.putVector k (len (s.policyAt k).datalen) bv
    if ok then storePages k len n c d bv s else (.error, s)

/-- How many of `c` pages are begun. -/
def pagesBegun (n : Nat) : Nat → Dec → Nat
  | 0, _ => 0
  | c + 1, d => (if (numbers n d).all numOk then pagesBegun n c (skipNumbers n d) else 0) + 1

section Pages

variable {s : Shm} {k n : Nat} {len : Nat → Nat}

theorem numbers_add (m n : Nat) (d : Dec) : numbers (m + n) d = numbers m d ++ numbers n (skipNumbers m d) := by
  induction m generalizing d with
  | zero =>
    rw [Nat.zero_add]
    rfl
  | succ m ih =>
    rw [Nat.add_right_comm, numbers, numbers, ih]
    rfl

theorem storePages_succ (c : Nat) (d : Dec) (bv : BitVector) :
    storePages k len n (c + 1) d bv s =
      if (setNumset n d bv).1 then
        storePages k len n c (setNumset n d bv).2.2 (setNumset n d bv).2.1
          (s.putVector k (len (s.policyAt k).datalen) (setNumset n d bv).2.1)
      else (.error, s.putVector k (len (s.policyAt k).datalen) (setNumset n d bv).2.1) := rfl

/-- The pages fail on the first number that is refused. -/
theorem storePages_error_iff (c : Nat) (d : Dec) (bv : BitVector) (s : Shm) :
    (storePages k len n c d bv s).1 = .error ↔ (numbers (c * n) d).all numOk = false := by
  induction c generalizing d bv s with
  | zero => simp [storePages, numbers]
  | succ c ih =>
    obtain ⟨h1, -, h3⟩ := setNumset_eq n d bv
    rw [storePages_succ, Nat.succ_mul, Nat.add_comm, numbers_add, List.all_append, ← h1]
    cases hok : (setNumset n d bv).1 with
    | true =>
      rw [if_pos rfl, ih, h3 hok]
      simp
    | false => simp

/-- The vector takes what comes before. -/
theorem storePages_vector (c : Nat) (d : Dec) {bv : BitVector} (hbv : s.globalBitvector1 = some bv) :
    (storePages k len n c d bv s).2.globalBitvector1 =
      some ((numbersTaken (c * n) d).foldl utilityBitVectorSet bv) := by
  induction c generalizing d bv s with
  | zero =>
    rw [Nat.zero_mul]
    exact hbv
  | succ c ih =>
    obtain ⟨-, h2, -⟩ := setNumset_eq n d bv
    rw [storePages_succ, numbersTaken_pages c n d bv]
    split
    · rw [ih _ rfl, h2, List.foldl_append]
    · rw [← h2]
      rfl

theorem datalen_putVector (hk : k < s.policys.length) (m : Nat) (bv : BitVector) :
    ((s.putVector k m bv).policyAt k).datalen = m % 2 ^ 32 := by
  rw [Shm.policyAt, List.getD_eq_getElem?_getD]
  simp [Shm.putVector, List.getElem?_eq_getElem hk]

theorem data_putVector (hk : k < s.policys.length) (m : Nat) (bv : BitVector) :
    ((s.putVector k m bv).policyAt k).data = .bitVector := by
  rw [Shm.policyAt, List.getD_eq_getElem?_getD]
  simp [Shm.putVector, List.getElem?_eq_getElem hk]

theorem length_putVector (s : Shm) (k m : Nat) (bv : BitVector) : (s.putVector k m bv).policys.length = s.policys.length :=
  List.length_modify _ _ _

/-- Each page that is begun changes `datalen`. -/
theorem storePages_datalen (hk : k < s.policys.length) (c : Nat) (d : Dec) (bv : BitVector) :
    ((storePages k len n c d bv s).2.policyAt k).datalen =
      (fun m => len m % 2 ^ 32)^[pagesBegun n c d] (s.policyAt k).datalen := by
  induction c generalizing d bv s with
  | zero => rfl
  | succ c ih =>
    obtain ⟨h1, -, h3⟩ := setNumset_eq n d bv
    rw [storePages_succ, pagesBegun, Function.iterate_succ_apply, ← h1]
    cases hok : (setNumset n d bv).1 with
    | true =>
      rw [if_pos rfl, if_pos rfl, ih (by rwa [length_putVector]), datalen_putVector hk, h3 hok]
    | false => exact datalen_putVector hk _ _

theorem storePages_data (hk : k < s.policys.length) (hd : (s.policyAt k).data = .bitVector) (c : Nat) (d : Dec)
    (bv : BitVector) : ((storePages k len n c d bv s).2.policyAt k).data = .bitVector := by
  induction c generalizing d bv s with
  | zero => exact hd
  | succ c ih =>
    rw [storePages_succ]
    split
    · exact ih (by rwa [length_putVector]) (data_putVector hk _ _) _ _
    · exact data_putVector hk _ _

theorem storePages_others {j : Nat} (hj : j ≠ k) (c : Nat) (d : Dec) (bv : BitVector) :
    (storePages k len n c d bv s).2.policyAt j = s.policyAt j := by
  induction c generalizing d bv s with
  | zero => rfl
  | succ c ih =>
    rw [storePages_succ]
    split
    · rw [ih, policyAt_putVector_of_ne hj]
    · exact policyAt_putVector_of_ne hj _ _

/-- Pages leave the sets alone if `datalen` ends where it was and the vector had the numbers. -/
theorem storePages_alone_iff (hc : VectorCovers s) (hk : k < s.policys.length) (hd : (s.policyAt k).data = .bitVector)
    (c : Nat) (d : Dec) {bv : BitVector} (hbv : s.globalBitvector1 = some bv) :
    SetsAlone s (storePages k len n c d bv s).2 ↔
      (fun m => len m % 2 ^ 32)^[pagesBegun n c d] (s.policyAt k).datalen = (s.policyAt k).datalen ∧
        ∀ v ∈ numbersTaken (c * n) d, VectorHas s v := by
  have hlen : ((storePages k len n c d bv s).2.policyAt k).datalen = _ := storePages_datalen hk c d bv
  have hdata : ((storePages k len n c d bv s).2.policyAt k).data = .bitVector := storePages_data hk hd c d bv
  have hothers : ∀ j, j ≠ k → (storePages k len n c d bv s).2.policyAt j = s.policyAt j :=
    fun j hj => storePages_others hj c d bv
  have hvec : ∀ v, VectorHas (storePages k len n c d bv s).2 v ↔ VectorHas s v ∨ v ∈ numbersTaken (c * n) d := by
    intro v
    rw [VectorHas, VectorHas, storePages_vector c d hbv, hbv]
    simp only [Option.some.injEq, exists_eq_left']
    exact bitVectorGet_foldl (hc bv hbv) (fun _ => numbersTaken_lt) v
  generalize (storePages k len n c d bv s).2 = s' at hlen hdata hothers hvec
  rw [← hlen]
  constructor
  · intro h
    have hmem := h.members k
    rw [SameMembers, hd, hdata] at hmem
    exact ⟨h.datalen k, fun v hv => (hmem v).1 ((hvec v).2 (Or.inr hv))⟩
  · rintro ⟨hdl, hall⟩
    have hsame : ∀ v, VectorHas s' v ↔ VectorHas s v := fun v =>
      (hvec v).trans ⟨fun h => h.elim id (hall v), Or.inl⟩
    refine ⟨fun j => ?_, fun j => ?_⟩
    · by_cases hj : j = k
      · rw [hj, hdl]
      · rw [hothers j hj]
    · by_cases hj : j = k
      · rw [hj, SameMembers, hd, hdata]
        exact hsame
      · exact sameMembers_of_eq (hothers j hj) hsame

end Pages

/-! ## The walks -/

section Walks

variable {s : Shm} {pid n k : Nat} {ks : List Nat}

theorem bitVectorOf_putVector (hk : k < s.policys.length) (m : Nat) (bv : BitVector) :
    (s.putVector k m bv).bitVectorOf ((s.putVector k m bv).policyAt k) = some bv := by
  rw [Shm.bitVectorOf, data_putVector hk]
  rfl

/-- The walk of `update_numset` where the set with the id is in the vector. -/
theorem numsetRefs_eq_storePages (hk : k < s.policys.length) (hone : ∀ j ∈ ks, s.Hit pid j → j = k)
    (hhit : s.Hit pid k) (hb : (s.policyAt k).bitsetId = 1) (d : Dec) {bv : BitVector}
    (hbv : s.bitVectorOf (s.policyAt k) = some bv) :
    numsetRefs pid n ks d s = storePages k (· + n) n (ks.count k) d bv s := by
  induction ks generalizing s d bv with
  | nil => rfl
  | cons j ks ih =>
    have hone' := fun i hi => hone i (List.mem_cons_of_mem j hi)
    by_cases hj : s.Hit pid j
    · obtain rfl := hone j List.mem_cons_self hj
      have hsame := sameTable_putVector hbv (size_setNumset n d bv) ((s.policyAt j).datalen + n)
      rw [numsetRefs_cons_vector hj hb hbv, List.count_cons_self, storePages_succ]
      split
      · refine ih (by rwa [length_putVector]) ?_ ((hsame.hit pid j).2 hhit) ((hsame.policy j).bitsetId.trans hb) _
          (bitVectorOf_putVector hk _ _)
        intro i hi hhit'
        exact hone' i hi ((hsame.hit pid i).1 hhit')
      · rfl
    · have hne : j ≠ k := fun he => hj (he ▸ hhit)
      rw [numsetRefs_cons_miss hj, List.count_cons_of_ne hne]
      exact ih hk hone' hhit hb d hbv

/-- Without the vector, the walk ends at the set. -/
theorem numsetRefs_null (hk : k ∈ ks) (hone : ∀ j ∈ ks, s.Hit pid j → j = k) (hhit : s.Hit pid k)
    (hb : (s.policyAt k).bitsetId = 1) (hbv : s.bitVectorOf (s.policyAt k) = none) (d : Dec) :
    numsetRefs pid n ks d s = (.error, s) := by
  induction ks with
  | nil => simp at hk
  | cons j ks ih =>
    by_cases hj : s.Hit pid j
    · obtain rfl := hone j List.mem_cons_self hj
      exact numsetRefs_cons_null hj hb hbv d
    · have hne : k ≠ j := fun he => hj (he ▸ hhit)
      rw [numsetRefs_cons_miss hj]
      exact ih ((List.mem_cons.1 hk).resolve_left hne) fun i hi => hone i (List.mem_cons_of_mem _ hi)

theorem bitvectorRefs_cons_vector {j : Nat} (h : BitsetHit s pid j) {bv : BitVector}
    (hbv : s.bitVectorOf (s.policyAt j) = some bv) (d : Dec) :
    bitvectorRefs pid n (j :: ks) d s =
      if (setNumset n d bv).1 then
        bitvectorRefs pid n ks (setNumset n d bv).2.2 (s.putVector j n (setNumset n d bv).2.1)
      else (.error, s.putVector j n (setNumset n d bv).2.1) := by
  refine (if_pos h).trans ?_
  simp only [hbv]

theorem bitvectorRefs_miss (h : ∀ j ∈ ks, ¬ BitsetHit s pid j) (d : Dec) : bitvectorRefs pid n ks d s = (.ok, s) := by
  induction ks with
  | nil => rfl
  | cons j ks ih =>
    have hskip : bitvectorRefs pid n (j :: ks) d s = bitvectorRefs pid n ks d s := if_neg (h j List.mem_cons_self)
    rw [hskip]
    exact ih fun i hi => h i (List.mem_cons_of_mem _ hi)

/-- The walk of `update_bitvector`. -/
theorem bitvectorRefs_eq_storePages (hk : k < s.policys.length) (hone : ∀ j ∈ ks, BitsetHit s pid j → j = k)
    (hhit : BitsetHit s pid k) (d : Dec) {bv : BitVector} (hbv : s.bitVectorOf (s.policyAt k) = some bv) :
    bitvectorRefs pid n ks d s = storePages k (fun _ => n) n (ks.count k) d bv s := by
  induction ks generalizing s d bv with
  | nil => rfl
  | cons j ks ih =>
    have hone' := fun i hi => hone i (List.mem_cons_of_mem j hi)
    by_cases hj : BitsetHit s pid j
    · obtain rfl := hone j List.mem_cons_self hj
      have hsame := sameTable_putVector hbv (size_setNumset n d bv) n
      rw [bitvectorRefs_cons_vector hj hbv, List.count_cons_self, storePages_succ]
      split
      · refine ih (by rwa [length_putVector]) ?_ ((hsame.bitsetHit pid j).2 hhit) _ (bitVectorOf_putVector hk _ _)
        intro i hi hhit'
        exact hone' i hi ((hsame.bitsetHit pid i).1 hhit')
      · rfl
    · have hne : j ≠ k := fun he => hj (he ▸ hhit)
      have hskip : bitvectorRefs pid n (j :: ks) d s = bitvectorRefs pid n ks d s := if_neg hj
      rw [hskip, List.count_cons_of_ne hne]
      exact ih hk hone' hhit d hbv

/-- Reading a number asks for no memory. -/
theorem numbers_slab (n : Nat) (d : Dec) (slab : Stream' Bool) : numbers n { d with slab := slab } = numbers n d := by
  induction n generalizing d with
  | zero => rfl
  | succ n ih => exact congrArg (d.readUint64.1 :: ·) (ih d.readUint64.2)

/-- A page goes into a tree whole if its numbers are good and there is memory for them. -/
theorem insertNumset_iff (n : Nat) (d : Dec) (t : NgxRbtree Nat) :
    (insertNumset n d t).1 = true ↔ (numbers n d).all numOk = true ∧ Granted n d.slab := by
  induction n generalizing d t with
  | zero => simp [insertNumset, numbers, granted_zero]
  | succ n ih =>
    rw [numbers, List.all_cons, granted_succ, Bool.and_eq_true]
    simp only [insertNumset]
    cases hok : numOk d.readUint64.1 with
    | false => simp
    | true =>
      have hslab : d.readUint64.2.slab = d.slab := rfl
      simp only [if_true, Dec.slabAlloc, hslab, true_and]
      cases hhead : d.slab.head with
      | false => simp
      | true =>
        rw [if_pos rfl]
        simp only [ih, numbers_slab, true_and]

theorem rcOf_eq_error {b : Bool} : rcOf b = .error ↔ b = false := by
  cases b <;> simp [rcOf]

end Walks

/-! ## The tables of a run -/

/-- What the decoder guarantees of references and sets. -/
structure WellStored (s : Shm) : Prop where
  table : SetTable s
  accepted : Accepted s

section WellStored

variable {s s' : Shm}

theorem setTable_of_nil (hg : s.policyGroup = []) : SetTable s := by
  have hno := refs_nil hg
  refine ⟨?_, ?_, ?_⟩
  · intro k hk
    simp [hno] at hk
  · intro j hj
    simp [hno] at hj
  · intro k hk
    simp [hno] at hk

/-- Groups and policies are the same. -/
theorem SetTable.of_eq (h : SetTable s) (hg : s'.policyGroup = s.policyGroup) (hp : s'.policys = s.policys) :
    SetTable s' := by
  have hrefs : s'.refs = s.refs := by rw [Shm.refs, hg, Shm.refs]
  have hat : ∀ k, s'.policyAt k = s.policyAt k := fun k => by rw [Shm.policyAt, hp, Shm.policyAt]
  refine ⟨?_, ?_, ?_⟩
  · intro k hk
    rw [hrefs] at hk
    rw [hp]
    exact h.bound k hk
  · intro j hj k hk he
    rw [hrefs] at hj hk
    rw [hat, hat] at he
    exact h.unique j hj k hk he
  · intro k hk hst
    rw [hrefs] at hk
    rw [Shm.stypeAt, hat] at hst
    rw [hat]
    exact h.kind k hk hst

theorem setTable_step (h : SetTable s) (c : Call) : SetTable (step s c) := by
  have ht := tableStep s c
  generalize step s c = s' at ht ⊢
  cases ht with
  | kept hg hp => exact h.of_eq hg hp
  | emptied hg => exact setTable_of_nil hg
  | updated hs => exact h.of_same hs
  | loaded t ht => exact setTable_of_loaded ht

theorem wellStored_run (hasBitset : Bool) (cs : List Call) : WellStored (run step (initialState hasBitset) cs) :=
  ⟨run_inv step (I := SetTable) (C := fun _ _ => True) (fun _ c h _ => setTable_step h c) (setTable_of_nil rfl)
    (always_of_forall step (fun _ _ => trivial) _ cs), accepted_run hasBitset cs⟩

end WellStored

/-! ## When a failure leaves no trace -/

/-- `c` pages for one policy: no number is refused, or `datalen` comes out as it was and the vector had every
number in front of the one that is refused. -/
def PagesAlone (s : Shm) (c n : Nat) (d : Dec) (sameLen : Prop) : Prop :=
  (numbers (c * n) d).all numOk = true ∨ sameLen ∧ ∀ v ∈ numbersTaken (c * n) d, VectorHas s v

/-- A call of `update_numset` that leaves the sets alone if it fails: it is refused before the sets, comes to
no set or to none with a store, or it stores a page that is good or traceless. -/
def NumsetAlone (s : Shm) (buf : Bytes) (after : Mem) (slab : Stream' Bool) (pid ver : Nat) : Prop :=
  buf.length ≠ 0 → s.version = ver → s.status = 1 →
    let n := (Dec.ofBuf buf after slab).readUint32.1
    let d := (Dec.ofBuf buf after slab).readUint32.2
    n ≠ 0 → ∀ k ∈ s.refs, s.Hit pid k →
      if (s.policyAt k).bitsetId = 1 then
        s.globalBitvector1.isSome → PagesAlone s (s.refs.count k) n d
          (((s.policyAt k).datalen + pagesBegun n (s.refs.count k) d * n) % 2 ^ 32 = (s.policyAt k).datalen)
      else (numbers n d).all numOk = true ∧ Granted n d.slab

def BitvectorAlone (s : Shm) (buf : Bytes) (after : Mem) (slab : Stream' Bool) (pid ver : Nat) : Prop :=
  s.globalBitvector1.isSome → buf.length ≠ 0 → s.version = ver → s.status = 1 →
    let n := (Dec.ofBuf buf after slab).readUint32.1
    let d := (Dec.ofBuf buf after slab).readUint32.2
    n ≠ 0 → ∀ k ∈ s.refs, BitsetHit s pid k → PagesAlone s (s.refs.count k) n d (n = (s.policyAt k).datalen)

section Alone

variable {s : Shm} {n pid : Nat}

theorem pagesBegun_pos {c : Nat} (hc : 0 < c) (n : Nat) (d : Dec) : ∃ p, pagesBegun n c d = p + 1 := by
  cases c with
  | zero => exact absurd hc (Nat.lt_irrefl 0)
  | succ c => exact ⟨_, rfl⟩

/-- Pages that are added up. -/
theorem iterate_add_mod (n m p : Nat) :
    (fun x => (x + n) % 2 ^ 32)^[p + 1] m = (m + (p + 1) * n) % 2 ^ 32 := by
  induction p generalizing m with
  | zero => rw [Nat.zero_add, Nat.one_mul, Function.iterate_one]
  | succ p ih =>
    rw [Function.iterate_succ_apply, ih, Nat.mod_add_mod]
    rw [Nat.succ_mul (p + 1), Nat.add_assoc, Nat.add_comm n]

theorem iterate_const_mod (n m p : Nat) : (fun _ => n % 2 ^ 32)^[p + 1] m = n % 2 ^ 32 := by
  rw [Function.iterate_succ_apply']

theorem readUint32_lt (d : Dec) : d.readUint32.1 < 2 ^ 32 := by
  have h := be_lt 4 d.p
  rw [← readUint32_eq_be] at h
  exact h

/-- What the pages of a policy leave if they fail. -/
theorem storePages_failure_iff (hc : VectorCovers s) {k : Nat} {len : Nat → Nat} (hk : k < s.policys.length)
    (hd : (s.policyAt k).data = .bitVector) (c : Nat) (d : Dec) {bv : BitVector} (hbv : s.globalBitvector1 = some bv) :
    ((storePages k len n c d bv s).1 = .error → SetsAlone s (storePages k len n c d bv s).2) ↔
      PagesAlone s c n d
        ((fun m => len m % 2 ^ 32)^[pagesBegun n c d] (s.policyAt k).datalen = (s.policyAt k).datalen) := by
  rw [storePages_error_iff, storePages_alone_iff hc hk hd c d hbv, PagesAlone]
  cases (numbers (c * n) d).all numOk with
  | true => simp
  | false => simp

theorem datalen_putTree {k : Nat} (hk : k < s.policys.length) (m : Nat) (t : NgxRbtree Nat) :
    ((s.putTree k m t).policyAt k).datalen = m % 2 ^ 32 := by
  rw [Shm.policyAt, List.getD_eq_getElem?_getD]
  simp [Shm.putTree, List.getElem?_eq_getElem hk]

/-- A tree that took a page has another `datalen`. -/
theorem putTree_failure_iff {k : Nat} (hk : k < s.policys.length) (hn : n ≠ 0) (hlt : n < 2 ^ 32) (ok : Bool)
    (t : NgxRbtree Nat) :
    (rcOf ok = .error → SetsAlone s (s.putTree k ((s.policyAt k).datalen + n) t)) ↔ ok = true := by
  rw [rcOf_eq_error]
  constructor
  · intro h
    by_contra hok
    have hlen := (h (Bool.eq_false_of_not_eq_true hok)).datalen k
    rw [datalen_putTree hk] at hlen
    omega
  · intro hok hno
    rw [hok] at hno
    cases hno

/-- The walk of `update_numset`. -/
theorem numsetRefs_failure_iff (hs : WellStored s) (hn : n ≠ 0) (hlt : n < 2 ^ 32) (d : Dec) :
    ((numsetRefs pid n s.refs d s).1 = .error → SetsAlone s (numsetRefs pid n s.refs d s).2) ↔
      ∀ k ∈ s.refs, s.Hit pid k →
        if (s.policyAt k).bitsetId = 1 then
          s.globalBitvector1.isSome → PagesAlone s (s.refs.count k) n d
            (((s.policyAt k).datalen + pagesBegun n (s.refs.count k) d * n) % 2 ^ 32 = (s.policyAt k).datalen)
        else (numbers n d).all numOk = true ∧ Granted n d.slab := by
  by_cases hex : ∃ k ∈ s.refs, s.Hit pid k
  · obtain ⟨k, hk, hhit⟩ := hex
    have hbound := hs.table.bound k hk
    have hone : ∀ j ∈ s.refs, s.Hit pid j → j = k := fun j hj hj' =>
      hs.table.unique j hj k hk (hj'.2.trans hhit.2.symm)
    have hkind := hs.table.kind k hk hhit.1
    have hcond : ∀ C : Nat → Prop, (∀ j ∈ s.refs, s.Hit pid j → C j) ↔ C k := fun C =>
      ⟨fun h => h k hk hhit, fun h j hj hj' => hone j hj hj' ▸ h⟩
    rw [hcond]
    by_cases hb : (s.policyAt k).bitsetId = 1
    · rw [if_pos hb] at hkind ⊢
      cases hv : s.globalBitvector1 with
      | none =>
        have hbv : s.bitVectorOf (s.policyAt k) = none := by rw [Shm.bitVectorOf, hkind, hv]
        rw [numsetRefs_null hk hone hhit hb hbv]
        exact iff_of_true (fun _ => .refl s) (by simp)
      | some bv =>
        have hbv : s.bitVectorOf (s.policyAt k) = some bv := by rw [Shm.bitVectorOf, hkind, hv]
        obtain ⟨p, hp⟩ := pagesBegun_pos (List.count_pos_iff.2 hk) n d
        rw [numsetRefs_eq_storePages hbound hone hhit hb d hbv,
          storePages_failure_iff hs.accepted.covers hbound hkind _ d hv, hp, iterate_add_mod]
        simp
    · rw [if_neg hb] at hkind ⊢
      obtain ⟨t, ht⟩ := hkind
      rw [numsetRefs_tree hk hone hhit hb ht d, ← insertNumset_iff n d t]
      exact putTree_failure_iff hbound hn hlt _ _
  · have hmiss : ∀ k ∈ s.refs, ¬ s.Hit pid k := fun k hk hhit => hex ⟨k, hk, hhit⟩
    rw [numsetRefs_miss hmiss d]
    exact iff_of_true (by simp) fun k hk hhit => absurd hhit (hmiss k hk)

/-- The walk of `update_bitvector`. -/
theorem bitvectorRefs_failure_iff (hs : WellStored s) (hlt : n < 2 ^ 32) (d : Dec) {bv : BitVector}
    (hv : s.globalBitvector1 = some bv) :
    ((bitvectorRefs pid n s.refs d s).1 = .error → SetsAlone s (bitvectorRefs pid n s.refs d s).2) ↔
      ∀ k ∈ s.refs, BitsetHit s pid k → PagesAlone s (s.refs.count k) n d (n = (s.policyAt k).datalen) := by
  by_cases hex : ∃ k ∈ s.refs, BitsetHit s pid k
  · obtain ⟨k, hk, hhit⟩ := hex
    have hbound := hs.table.bound k hk
    have hone : ∀ j ∈ s.refs, BitsetHit s pid j → j = k := fun j hj hj' =>
      hs.table.unique j hj k hk (hj'.2.trans hhit.2.symm)
    have hkind := hs.accepted.vector k hk (Or.inl hhit.1)
    have hcond : ∀ C : Nat → Prop, (∀ j ∈ s.refs, BitsetHit s pid j → C j) ↔ C k := fun C =>
      ⟨fun h => h k hk hhit, fun h j hj hj' => hone j hj hj' ▸ h⟩
    have hbv : s.bitVectorOf (s.policyAt k) = some bv := by rw [Shm.bitVectorOf, hkind, hv]
    obtain ⟨p, hp⟩ := pagesBegun_pos (List.count_pos_iff.2 hk) n d
    rw [hcond, bitvectorRefs_eq_storePages hbound hone hhit d hbv,
      storePages_failure_iff hs.accepted.covers hbound hkind _ d hv, hp, iterate_const_mod, Nat.mod_eq_of_lt hlt]
  · have hmiss : ∀ k ∈ s.refs, ¬ BitsetHit s pid k := fun k hk hhit => hex ⟨k, hk, hhit⟩
    rw [bitvectorRefs_miss hmiss d]
    exact iff_of_true (by simp) fun k hk hhit => absurd hhit (hmiss k hk)

/-- A guard in front of the sets. -/
theorem alone_guard {c : Prop} [Decidable c] {x : Rc × Shm} :
    ((if c then (.error, s) else x).1 = .error → SetsAlone s (if c then (.error, s) else x).2) ↔
      (¬ c → x.1 = .error → SetsAlone s x.2) := by
  by_cases hc : c
  · rw [if_pos hc]
    exact iff_of_true (fun _ => .refl s) fun h => absurd hc h
  · rw [if_neg hc]
    exact ⟨fun h _ => h, fun h => h hc⟩

theorem updateNumset_failure_iff (hs : WellStored s) (buf : Bytes) (after : Mem) (slab : Stream' Bool) (pid ver : Nat) :
    ((updateNumset s buf after slab pid ver).1 = .error → SetsAlone s (updateNumset s buf after slab pid ver).2) ↔
      NumsetAlone s buf after slab pid ver := by
  simp only [updateNumset, alone_guard, NumsetAlone, ne_eq, not_not]
  refine forall_congr' fun _ => forall_congr' fun _ => forall_congr' fun _ => ?_
  exact forall_congr' fun h0 => numsetRefs_failure_iff hs h0 (readUint32_lt _) _

theorem updateBitvector_failure_iff (hs : WellStored s) (buf : Bytes) (after : Mem) (slab : Stream' Bool)
    (pid ver : Nat) :
    ((updateBitvector s buf after slab pid ver).1 = .error → SetsAlone s (updateBitvector s buf after slab pid ver).2) ↔
      BitvectorAlone s buf after slab pid ver := by
  have hisSome : ¬ s.globalBitvector1.isNone = true ↔ s.globalBitvector1.isSome = true := by
    cases s.globalBitvector1 <;> simp
  simp only [updateBitvector, alone_guard, BitvectorAlone, ne_eq, not_not, hisSome]
  refine forall_congr' fun hbv => forall_congr' fun _ => forall_congr' fun _ => forall_congr' fun _ => ?_
  obtain ⟨bv, hv⟩ := Option.isSome_iff_exists.1 hbv
  exact forall_congr' fun _ => bitvectorRefs_failure_iff hs (readUint32_lt _) _ hv

end Alone

/-- **A failed update** leaves the sets of a state of a run alone exactly if it fails in front of them or on a
page that leaves no trace. -/
theorem failedUpdate_iff (hasBitset : Bool) (cs : List Call) (buf : Bytes) (after : Mem) (slab : Stream' Bool)
    (pid ver : Nat) :
    (((updateNumset (run step (initialState hasBitset) cs) buf after slab pid ver).1 = .error →
        SetsAlone (run step (initialState hasBitset) cs)
          (updateNumset (run step (initialState hasBitset) cs) buf after slab pid ver).2) ↔
      NumsetAlone (run step (initialState hasBitset) cs) buf after slab pid ver) ∧
    (((updateBitvector (run step (initialState hasBitset) cs) buf after slab pid ver).1 = .error →
        SetsAlone (run step (initialState hasBitset) cs)
          (updateBitvector (run step (initialState hasBitset) cs) buf after slab pid ver).2) ↔
      BitvectorAlone (run step (initialState hasBitset) cs) buf after slab pid ver) := by
  have hs := wellStored_run hasBitset cs
  exact ⟨updateNumset_failure_iff hs buf after slab pid ver, updateBitvector_failure_iff hs buf after slab pid ver⟩

/-- Version 1 in status 1, and one `aidset` that one group refers to. -/
def oneAidset : List Call :=
  [.updateRuntimeinfo 0 [0, 1, 0, 0, 0, 1, 0, 0, 0, 0, 0, 0, 0, 0, 0, 0] (Stream'.const 0) (Stream'.const true),
    .updatePolicy (fun _ => Stream'.const 0)
      [0, 1,
       0, 0, 0, 7, 0, 6, 97, 105, 100, 115, 101, 116, 0, 0, 0, 0,
       0, 1,
       0, 0, 0, 1, 0, 0, 0, 0, 0, 1, 0, 0, 0, 7]
      (Stream'.const 0) (Stream'.const true) 1]

/-- The numbers 5 and 0: the page is refused, and 5 and a length of 2 stay. -/
theorem failed_page_stays :
    ¬ ((updateNumset (run step (initialState false) oneAidset) (pageBytes [5, 0]) (Stream'.const 0)
        (Stream'.const true) 7 1).1 = .error →
      SetsAlone (run step (initialState false) oneAidset)
        (updateNumset (run step (initialState false) oneAidset) (pageBytes [5, 0]) (Stream'.const 0)
          (Stream'.const true) 7 1).2) := by
  intro h
  have hlen := (h (by decide +kernel)).datalen 0
  have hbefore : ((run step (initialState false) oneAidset).policyAt 0).datalen = 0 := by decide +kernel
  have hafter : ((updateNumset (run step (initialState false) oneAidset) (pageBytes [5, 0]) (Stream'.const 0)
      (Stream'.const true) 7 1).2.policyAt 0).datalen = 2 := by decide +kernel
  rw [hbefore, hafter] at hlen
  cases hlen

end NgxPlus.Diversion
