import NgxPlus.Diversion.Numset

/-!
# One page of numbers

`update_numset` on a page `u32 n, u64 × n` for the policy `pid`. `SetTable` holds of a table
that was accepted and `SameTable` says that a call keeps it: types, ids, bitset ids, and
which kind of data a policy has.

* `updateNumset_tree`: a tree gets the page's numbers (without memory, some of them: `updateNumset_keys`);
* `updateNumset_vector`: a vector gets them if there is one reference to the policy;
* `updateNumset_ok_only`: with a second one the numbers are read again from behind the page.
-/

namespace NgxPlus.Diversion

open ByteMem Decode Rbtree

/-! ## The table -/

/-- The reference is to a set with the id. -/
def Shm.Hit (s : Shm) (pid k : Nat) : Prop := s.stypeAt k = .rbtree ∧ (s.policyAt k).id = pid

instance (s : Shm) (pid k : Nat) : Decidable (s.Hit pid k) := inferInstanceAs (Decidable (_ ∧ _))

/-- An id is referred to by one index, and a set has the data its bitset id calls for. -/
structure SetTable (s : Shm) : Prop where
  bound : ∀ k ∈ s.refs, k < s.policys.length
  unique : ∀ j ∈ s.refs, ∀ k ∈ s.refs, (s.policyAt j).id = (s.policyAt k).id → j = k
  kind : ∀ k ∈ s.refs, s.stypeAt k = .rbtree →
    if (s.policyAt k).bitsetId = 1 then (s.policyAt k).data = .bitVector
    else ∃ t, (s.policyAt k).data = .rbtree t

/-- The same policy, up to the numbers in its tree. -/
structure SamePolicy (p p' : DiversionPolicy) : Prop where
  type : p'.type = p.type
  id : p'.id = p.id
  bitsetId : p'.bitsetId = p.bitsetId
  vector : p.data = .bitVector → p'.data = .bitVector
  tree : (∃ t, p.data = .rbtree t) → ∃ t, p'.data = .rbtree t

/-- The same policies, up to the numbers in trees and vector. -/
structure SameTable (s s' : Shm) : Prop where
  frame : SameButNumbers s s'
  policy : ∀ k, SamePolicy (s.policyAt k) (s'.policyAt k)

theorem SamePolicy.refl (p : DiversionPolicy) : SamePolicy p p := ⟨rfl, rfl, rfl, fun h => h, fun h => h⟩

theorem SameTable.refl (s : Shm) : SameTable s s := ⟨.refl s, fun _ => .refl _⟩

theorem SameTable.trans {a b c : Shm} (h : SameTable a b) (h' : SameTable b c) : SameTable a c := by
  refine ⟨h.frame.trans h'.frame, fun k => ?_⟩
  have hk := h.policy k
  have hk' := h'.policy k
  exact ⟨hk'.type.trans hk.type, hk'.id.trans hk.id, hk'.bitsetId.trans hk.bitsetId,
    fun hd => hk'.vector (hk.vector hd), fun hd => hk'.tree (hk.tree hd)⟩

theorem SameTable.stypeAt {s s' : Shm} (h : SameTable s s') (k : Nat) : s'.stypeAt k = s.stypeAt k := by
  rw [Shm.stypeAt, (h.policy k).type]
  rfl

theorem SameTable.refs {s s' : Shm} (h : SameTable s s') : s'.refs = s.refs := by
  rw [Shm.refs, h.frame.policyGroup]
  rfl

theorem SameTable.hit {s s' : Shm} (h : SameTable s s') (pid k : Nat) : s'.Hit pid k ↔ s.Hit pid k := by
  rw [Shm.Hit, h.stypeAt, (h.policy k).id]
  rfl

theorem SameTable.isSome {s s' : Shm} (h : SameTable s s') :
    s'.globalBitvector1.isSome = s.globalBitvector1.isSome := by
  have hs := congrArg Option.isSome h.frame.size
  rwa [Option.isSome_map, Option.isSome_map] at hs

theorem SetTable.of_same {s s' : Shm} (ht : SetTable s) (h : SameTable s s') : SetTable s' := by
  refine ⟨?_, ?_, ?_⟩
  · intro k hk
    rw [h.refs] at hk
    rw [h.frame.length]
    exact ht.bound k hk
  · intro j hj k hk he
    rw [h.refs] at hj hk
    rw [(h.policy j).id, (h.policy k).id] at he
    exact ht.unique j hj k hk he
  · intro k hk hst
    rw [h.refs] at hk
    rw [h.stypeAt] at hst
    have hkind := ht.kind k hk hst
    rw [(h.policy k).bitsetId]
    split
    · rename_i h1
      rw [if_pos h1] at hkind
      exact (h.policy k).vector hkind
    · rename_i h1
      rw [if_neg h1] at hkind
      exact (h.policy k).tree hkind

/-! ## Stores -/

theorem policyAt_modify (s : Shm) (k j : Nat) (f : DiversionPolicy → DiversionPolicy) :
    (s.policys.modify k f).getD j default = s.policyAt j ∨
      j = k ∧ (s.policys.modify k f).getD j default = f (s.policyAt k) := by
  rw [Shm.policyAt, List.getD_eq_getElem?_getD, List.getElem?_modify, List.getD_eq_getElem?_getD]
  cases hj : s.policys[j]? with
  | none => exact Or.inl rfl
  | some p =>
    by_cases hk : k = j
    · subst hk
      refine Or.inr ⟨rfl, ?_⟩
      rw [Shm.policyAt, List.getD_eq_getElem?_getD, hj]
      simp
    · exact Or.inl (by simp [hk])

theorem data_putTree {s : Shm} {k : Nat} (hk : k < s.policys.length) (n : Nat) (t : NgxRbtree Nat) :
    ((s.putTree k n t).policyAt k).data = .rbtree t := by
  rw [Shm.policyAt, List.getD_eq_getElem?_getD]
  simp [Shm.putTree, List.getElem?_eq_getElem hk]

theorem policyAt_putTree_of_ne {s : Shm} {k i : Nat} (h : i ≠ k) (n : Nat) (t : NgxRbtree Nat) :
    (s.putTree k n t).policyAt i = s.policyAt i :=
  (policyAt_modify s k i _).resolve_right fun he => h he.1

theorem policyAt_putVector_of_ne {s : Shm} {k i : Nat} (h : i ≠ k) (n : Nat) (bv : BitVector) :
    (s.putVector k n bv).policyAt i = s.policyAt i :=
  (policyAt_modify s k i _).resolve_right fun he => h he.1

/-- A vector's store makes no tree. -/
theorem tree_of_putVector {s : Shm} {k n i : Nat} {bv : BitVector} {t : NgxRbtree Nat}
    (h : ((s.putVector k n bv).policyAt i).data = .rbtree t) : (s.policyAt i).data = .rbtree t := by
  rcases policyAt_modify s k i fun p =>
      { p with datalen := n % 2 ^ 32, data := .bitVector, fits := trivial } with he | ⟨-, he⟩
  · rw [← he]
    exact h
  · exact absurd (h.symm.trans (congrArg DiversionPolicy.data he)) (by simp)

/-- A store into one policy. -/
theorem sameTable_modify {s s' : Shm} (hf : SameButNumbers s s') {k : Nat}
    {f : DiversionPolicy → DiversionPolicy} (hs : s'.policys = s.policys.modify k f)
    (hk : SamePolicy (s.policyAt k) (f (s.policyAt k))) : SameTable s s' := by
  refine ⟨hf, fun j => ?_⟩
  have hj : s'.policyAt j = (s.policys.modify k f).getD j default := by rw [Shm.policyAt, hs]
  rcases policyAt_modify s k j f with h | ⟨rfl, h⟩
  · rw [hj, h]
    exact .refl _
  · rw [hj, h]
    exact hk

theorem sameTable_putTree {s : Shm} {k : Nat} {t : NgxRbtree Nat} (ht : (s.policyAt k).data = .rbtree t)
    (n : Nat) (t' : NgxRbtree Nat) : SameTable s (s.putTree k n t') :=
  sameTable_modify (sameButNumbers_putTree s k n t') rfl
    ⟨rfl, rfl, rfl, fun hd => by simp [ht] at hd, fun _ => ⟨t', rfl⟩⟩

theorem sameTable_putVector {s : Shm} {k : Nat} {bv bv' : BitVector}
    (h : s.bitVectorOf (s.policyAt k) = some bv) (hs : bv'.size = bv.size) (n : Nat) :
    SameTable s (s.putVector k n bv') := by
  have hd := (bitVectorOf_eq_some h).1
  exact sameTable_modify (sameButNumbers_putVector h hs k n) rfl
    ⟨rfl, rfl, rfl, fun _ => rfl, fun ⟨t, ht⟩ => by simp [hd] at ht⟩

theorem numsetRefs_sameTable (pid n : Nat) (ks : List Nat) (d : Dec) (s : Shm) :
    SameTable s (numsetRefs pid n ks d s).2 :=
  numsetRefs_rel .refl .trans pid n (fun _ _ len _ t' _ ht => sameTable_putTree ht len t')
    (fun _ _ len d bv _ hbv => sameTable_putVector hbv (size_setNumset n d bv) len) ks d s

theorem bitvectorRefs_sameTable (pid n : Nat) (ks : List Nat) (d : Dec) (s : Shm) :
    SameTable s (bitvectorRefs pid n ks d s).2 :=
  bitvectorRefs_rel .refl .trans pid n
    (fun _ _ len d bv _ hbv => sameTable_putVector hbv (size_setNumset n d bv) len) ks d s

/-! ## Numbers -/

/-- The body of a page. -/
def pageBytes (page : List Nat) : Bytes :=
  utilityMqttWriteUint32 page.length ++ page.flatMap utilityMqttWriteUint64

/-- A number of a set. -/
def NumOk (v : Nat) : Prop := 1 ≤ v ∧ v < 2 ^ 32

instance (v : Nat) : Decidable (NumOk v) := inferInstanceAs (Decidable (_ ∧ _))

theorem numOk_of {v : Nat} (h : NumOk v) : numOk v = true := by
  have hv : v ≠ 0 ∧ v ≤ 2 ^ 32 - 1 := by
    unfold NumOk at h
    omega
  exact decide_eq_true hv

theorem mem_keys_foldl {vals : List Nat} {t : NgxRbtree Nat} {v : Nat} :
    v ∈ (vals.foldl ngxRbtreeInsert t).keys ↔ v ∈ t.keys ∨ v ∈ vals := by
  induction vals generalizing t with
  | nil => simp
  | cons w vals ih =>
    rw [List.foldl_cons, ih, mem_keys_insert, List.mem_cons]
    tauto

theorem rcOf_eq_ok {b : Bool} : rcOf b = .ok ↔ b = true := by
  cases b <;> simp [rcOf]

/-- The next `n` allocations succeed. -/
def Granted (n : Nat) (slab : Stream' Bool) : Prop := ∀ i < n, slab.get i = true

theorem granted_zero (slab : Stream' Bool) : Granted 0 slab := fun _ hi => absurd hi (Nat.not_lt_zero _)

theorem granted_const (n : Nat) : Granted n (Stream'.const true) := fun _ _ => rfl

theorem granted_succ {n : Nat} {slab : Stream' Bool} :
    Granted (n + 1) slab ↔ slab.head = true ∧ Granted n slab.tail := by
  constructor
  · intro h
    exact ⟨h 0 (Nat.succ_pos n), fun i hi => h (i + 1) (Nat.succ_lt_succ hi)⟩
  · rintro ⟨h0, h⟩ i hi
    cases i with
    | zero => exact h0
    | succ i => exact h i (Nat.lt_of_succ_lt_succ hi)

/-- With memory, the whole page goes into the tree. -/
theorem insertNumset_granted {vals : List Nat} (h : ∀ v ∈ vals, NumOk v) {rest : Bytes} {m : Mem}
    {slab : Stream' Bool} (hmem : Granted vals.length slab) (t : NgxRbtree Nat) :
    insertNumset vals.length (.ofBuf (vals.flatMap utilityMqttWriteUint64 ++ rest) m slab) t =
      (true, vals.foldl ngxRbtreeInsert t) := by
  induction vals generalizing t slab with
  | nil => rfl
  | cons v vals ih =>
    have hv := h v List.mem_cons_self
    obtain ⟨hhead, htail⟩ := granted_succ.1 hmem
    rw [List.length_cons, insertNumset, List.flatMap_cons, List.append_assoc, Dec.readUint64_write,
      Nat.mod_eq_of_lt (hv.2.trans (by decide))]
    simp only [numOk_of hv, if_true, Dec.slabAlloc, Dec.ofBuf, hhead]
    exact ih (fun w hw => h w (List.mem_cons_of_mem _ hw)) htail _

theorem granted_of_insertNumset {vals : List Nat} (h : ∀ v ∈ vals, NumOk v) {rest : Bytes} {m : Mem}
    {slab : Stream' Bool} {t : NgxRbtree Nat}
    (hok : (insertNumset vals.length (.ofBuf (vals.flatMap utilityMqttWriteUint64 ++ rest) m slab) t).1 = true) :
    Granted vals.length slab := by
  induction vals generalizing t slab with
  | nil => exact granted_zero slab
  | cons v vals ih =>
    have hv := h v List.mem_cons_self
    rw [List.length_cons, insertNumset, List.flatMap_cons, List.append_assoc, Dec.readUint64_write,
      Nat.mod_eq_of_lt (hv.2.trans (by decide))] at hok
    simp only [numOk_of hv, if_true, Dec.slabAlloc] at hok
    rw [List.length_cons, granted_succ]
    split at hok
    · rename_i d hd
      split at hd
      · rename_i hhead
        obtain rfl := Except.ok.inj hd
        exact ⟨hhead, ih (fun w hw => h w (List.mem_cons_of_mem _ hw)) hok⟩
      · simp at hd
    · simp at hok

/-- Without memory, some of it does, and nothing else. -/
theorem mem_keys_insertNumset {vals : List Nat} (h : ∀ v ∈ vals, NumOk v) {rest : Bytes} {m : Mem}
    {slab : Stream' Bool} {t : NgxRbtree Nat} {v : Nat}
    (hv : v ∈ (insertNumset vals.length (.ofBuf (vals.flatMap utilityMqttWriteUint64 ++ rest) m slab) t).2.keys) :
    v ∈ t.keys ∨ v ∈ vals := by
  induction vals generalizing t slab with
  | nil => exact Or.inl hv
  | cons w vals ih =>
    have hw := h w List.mem_cons_self
    rw [List.length_cons, insertNumset, List.flatMap_cons, List.append_assoc, Dec.readUint64_write,
      Nat.mod_eq_of_lt (hw.2.trans (by decide))] at hv
    simp only [numOk_of hw, if_true, Dec.slabAlloc] at hv
    rw [List.mem_cons]
    split at hv
    · rename_i d hd
      split at hd
      · obtain rfl := Except.ok.inj hd
        rcases ih (fun u hu => h u (List.mem_cons_of_mem _ hu)) hv with hv | hv
        · rw [mem_keys_insert] at hv
          tauto
        · exact Or.inr (Or.inr hv)
      · simp at hd
    · exact Or.inl hv

theorem setNumset_page {vals : List Nat} (h : ∀ v ∈ vals, NumOk v) (rest : Bytes) (m : Mem)
    (slab : Stream' Bool) (bv : BitVector) :
    setNumset vals.length (.ofBuf (vals.flatMap utilityMqttWriteUint64 ++ rest) m slab) bv =
      (true, vals.foldl utilityBitVectorSet bv, .ofBuf rest m slab) := by
  induction vals generalizing bv with
  | nil => rfl
  | cons v vals ih =>
    have hv := h v List.mem_cons_self
    rw [List.length_cons, setNumset, List.flatMap_cons, List.append_assoc, Dec.readUint64_write,
      Nat.mod_eq_of_lt (hv.2.trans (by decide))]
    simp only [numOk_of hv, if_true]
    exact ih (fun w hw => h w (List.mem_cons_of_mem _ hw)) _

theorem readUint64_zeros : utilityMqttReadUint64 (Stream'.const 0) = 0 := rfl

/-- Behind the page, zeros are refused. -/
theorem setNumset_zeros {n : Nat} (h : n ≠ 0) (slab : Stream' Bool) (bv : BitVector) :
    (setNumset n (.ofBuf [] (Stream'.const 0) slab) bv).1 = false := by
  obtain ⟨k, rfl⟩ := Nat.exists_eq_succ_of_ne_zero h
  have hzero : (Dec.ofBuf [] (Stream'.const 0) slab).readUint64.1 = 0 := readUint64_zeros
  have hno : numOk 0 = false := rfl
  simp only [setNumset, hzero, hno, Bool.false_eq_true, if_false]

/-! ## The walk over the references -/

section Walk

variable {s : Shm} {pid n j k : Nat} {ks : List Nat}

theorem numsetRefs_cons_miss (h : ¬ s.Hit pid j) (d : Dec) :
    numsetRefs pid n (j :: ks) d s = numsetRefs pid n ks d s := if_neg h

theorem numsetRefs_cons_tree (h : s.Hit pid j) (hb : (s.policyAt j).bitsetId ≠ 1) {t : NgxRbtree Nat}
    (ht : (s.policyAt j).data = .rbtree t) (d : Dec) :
    numsetRefs pid n (j :: ks) d s = (rcOf (insertNumset n d t).1,
      s.putTree j ((s.policyAt j).datalen + n) (insertNumset n d t).2) := by
  refine (if_pos h).trans ((if_neg hb).trans ?_)
  simp only [ht]

theorem numsetRefs_cons_vector (h : s.Hit pid j) (hb : (s.policyAt j).bitsetId = 1) {bv : BitVector}
    (hbv : s.bitVectorOf (s.policyAt j) = some bv) (d : Dec) :
    numsetRefs pid n (j :: ks) d s =
      if (setNumset n d bv).1 then
        numsetRefs pid n ks (setNumset n d bv).2.2
          (s.putVector j ((s.policyAt j).datalen + n) (setNumset n d bv).2.1)
      else (.error, s.putVector j ((s.policyAt j).datalen + n) (setNumset n d bv).2.1) := by
  refine (if_pos h).trans ((if_pos hb).trans ?_)
  simp only [hbv]

theorem numsetRefs_cons_null (h : s.Hit pid j) (hb : (s.policyAt j).bitsetId = 1)
    (hbv : s.bitVectorOf (s.policyAt j) = none) (d : Dec) :
    numsetRefs pid n (j :: ks) d s = (.error, s) := by
  refine (if_pos h).trans ((if_pos hb).trans ?_)
  simp only [hbv]

theorem numsetRefs_miss (h : ∀ j ∈ ks, ¬ s.Hit pid j) (d : Dec) : numsetRefs pid n ks d s = (.ok, s) := by
  induction ks with
  | nil => rfl
  | cons j ks ih =>
    rw [numsetRefs_cons_miss (h j List.mem_cons_self)]
    exact ih fun i hi => h i (List.mem_cons_of_mem _ hi)

/-- The walk ends at the first tree with the id. -/
theorem numsetRefs_tree (hk : k ∈ ks) (hone : ∀ j ∈ ks, s.Hit pid j → j = k) (hhit : s.Hit pid k)
    (hb : (s.policyAt k).bitsetId ≠ 1) {t : NgxRbtree Nat} (ht : (s.policyAt k).data = .rbtree t) (d : Dec) :
    numsetRefs pid n ks d s = (rcOf (insertNumset n d t).1,
      s.putTree k ((s.policyAt k).datalen + n) (insertNumset n d t).2) := by
  induction ks with
  | nil => simp at hk
  | cons j ks ih =>
    by_cases hj : s.Hit pid j
    · obtain rfl := hone j List.mem_cons_self hj
      exact numsetRefs_cons_tree hj hb ht d
    · have hne : k ≠ j := fun he => hj (he ▸ hhit)
      rw [numsetRefs_cons_miss hj]
      exact ih ((List.mem_cons.1 hk).resolve_left hne) fun i hi => hone i (List.mem_cons_of_mem _ hi)

/-- One reference to a bit-backed set. -/
theorem numsetRefs_vector (hk : ks.count k = 1) (hone : ∀ j ∈ ks, s.Hit pid j → j = k)
    (hhit : s.Hit pid k) (hb : (s.policyAt k).bitsetId = 1) {bv : BitVector}
    (hbv : s.bitVectorOf (s.policyAt k) = some bv) {d : Dec} (hset : (setNumset n d bv).1 = true) :
    numsetRefs pid n ks d s = (.ok, s.putVector k ((s.policyAt k).datalen + n) (setNumset n d bv).2.1) := by
  have hsame := sameTable_putVector hbv (size_setNumset n d bv) ((s.policyAt k).datalen + n)
  induction ks with
  | nil => simp at hk
  | cons j ks ih =>
    by_cases hj : s.Hit pid j
    · obtain rfl := hone j List.mem_cons_self hj
      rw [List.count_cons_self] at hk
      have hnone : j ∉ ks := List.count_eq_zero.1 (by omega)
      rw [numsetRefs_cons_vector hj hb hbv, if_pos hset, numsetRefs_miss]
      intro i hi hhit'
      rw [hsame.hit] at hhit'
      exact hnone (hone i (List.mem_cons_of_mem _ hi) hhit' ▸ hi)
    · have hne : j ≠ k := fun he => hj (he ▸ hhit)
      rw [List.count_cons_of_ne hne] at hk
      rw [numsetRefs_cons_miss hj]
      exact ih hk fun i hi => hone i (List.mem_cons_of_mem _ hi)

/-- A reference that is walked when the page is used up. -/
theorem numsetRefs_zeros (hk : k ∈ ks) (hone : ∀ j ∈ ks, s.Hit pid j → j = k) (hhit : s.Hit pid k)
    (hb : (s.policyAt k).bitsetId = 1) (hn : n ≠ 0) (slab : Stream' Bool) :
    (numsetRefs pid n ks (.ofBuf [] (Stream'.const 0) slab) s).1 ≠ .ok := by
  induction ks with
  | nil => simp at hk
  | cons j ks ih =>
    by_cases hj : s.Hit pid j
    · obtain rfl := hone j List.mem_cons_self hj
      cases hbv : s.bitVectorOf (s.policyAt j) with
      | none => simp [numsetRefs_cons_null hj hb hbv]
      | some bv => simp [numsetRefs_cons_vector hj hb hbv, setNumset_zeros hn slab bv]
    · have hne : k ≠ j := fun he => hj (he ▸ hhit)
      rw [numsetRefs_cons_miss hj]
      exact ih ((List.mem_cons.1 hk).resolve_left hne) fun i hi => hone i (List.mem_cons_of_mem _ hi)

/-- With zeros behind the page, a bit-backed set is taken only with the vector there and one
reference. -/
theorem numsetRefs_vector_ok (hk : k ∈ ks) (hone : ∀ j ∈ ks, s.Hit pid j → j = k) (hhit : s.Hit pid k)
    (hb : (s.policyAt k).bitsetId = 1) {vals : List Nat} (hv : ∀ v ∈ vals, NumOk v) (hne : vals ≠ [])
    {slab : Stream' Bool} (hok : (numsetRefs pid vals.length ks
      (.ofBuf (vals.flatMap utilityMqttWriteUint64) (Stream'.const 0) slab) s).1 = .ok) :
    s.globalBitvector1.isSome ∧ ks.count k = 1 := by
  have hlen : vals.length ≠ 0 := fun h0 => hne (List.length_eq_zero_iff.1 h0)
  rw [← List.append_nil (vals.flatMap utilityMqttWriteUint64)] at hok
  induction ks with
  | nil => simp at hk
  | cons j ks ih =>
    by_cases hj : s.Hit pid j
    · obtain rfl := hone j List.mem_cons_self hj
      cases hbv : s.bitVectorOf (s.policyAt j) with
      | none => simp [numsetRefs_cons_null hj hb hbv] at hok
      | some bv =>
        have hsame := sameTable_putVector hbv (size_setNumset vals.length
          (.ofBuf (vals.flatMap utilityMqttWriteUint64 ++ []) (Stream'.const 0) slab) bv)
          ((s.policyAt j).datalen + vals.length)
        rw [numsetRefs_cons_vector hj hb hbv] at hok
        rw [setNumset_page hv] at hok hsame
        refine ⟨by rw [(bitVectorOf_eq_some hbv).2]; rfl, ?_⟩
        rw [List.count_cons_self, Nat.add_eq_right, List.count_eq_zero]
        intro hmem
        refine numsetRefs_zeros hmem ?_ ((hsame.hit pid j).2 hj) ?_ hlen slab hok
        · intro i hi hhit'
          exact hone i (List.mem_cons_of_mem _ hi) ((hsame.hit pid i).1 hhit')
        · exact (hsame.policy j).bitsetId.trans hb
    · have hne' : j ≠ k := fun he => hj (he ▸ hhit)
      rw [numsetRefs_cons_miss hj] at hok
      rw [List.count_cons_of_ne hne']
      exact ih ((List.mem_cons.1 hk).resolve_left hne'.symm)
        (fun i hi => hone i (List.mem_cons_of_mem _ hi)) hok

/-- Where only bit-backed sets are hit, no tree changes. -/
theorem numsetRefs_vector_trees (h : ∀ j ∈ ks, s.Hit pid j → (s.policyAt j).bitsetId = 1) (d : Dec) {i : Nat}
    {t : NgxRbtree Nat} (ht : ((numsetRefs pid n ks d s).2.policyAt i).data = .rbtree t) :
    (s.policyAt i).data = .rbtree t := by
  induction ks generalizing s d with
  | nil => exact ht
  | cons j ks ih =>
    by_cases hj : s.Hit pid j
    · have hb := h j List.mem_cons_self hj
      cases hbv : s.bitVectorOf (s.policyAt j) with
      | none => rwa [numsetRefs_cons_null hj hb hbv] at ht
      | some bv =>
        have hsame := sameTable_putVector hbv (size_setNumset n d bv) ((s.policyAt j).datalen + n)
        rw [numsetRefs_cons_vector hj hb hbv] at ht
        split at ht
        · refine tree_of_putVector (ih ?_ _ ht)
          intro i hi hhit
          rw [(hsame.policy i).bitsetId]
          exact h i (List.mem_cons_of_mem _ hi) ((hsame.hit pid i).1 hhit)
        · exact tree_of_putVector ht
    · rw [numsetRefs_cons_miss hj] at ht
      exact ih (fun i hi => h i (List.mem_cons_of_mem _ hi)) d ht

end Walk

/-! ## The call -/

theorem updateNumset_sameTable (s : Shm) (buf : Bytes) (after : Mem) (slab : Stream' Bool) (pid ver : Nat) :
    SameTable s (updateNumset s buf after slab pid ver).2 := by
  simp only [updateNumset]
  split_ifs
  · exact .refl s
  · exact .refl s
  · exact .refl s
  · exact .refl s
  · exact numsetRefs_sameTable _ _ _ _ _

theorem updateBitvector_sameTable (s : Shm) (buf : Bytes) (after : Mem) (slab : Stream' Bool) (pid ver : Nat) :
    SameTable s (updateBitvector s buf after slab pid ver).2 := by
  simp only [updateBitvector]
  split_ifs
  · exact .refl s
  · exact .refl s
  · exact .refl s
  · exact .refl s
  · exact .refl s
  · exact bitvectorRefs_sameTable _ _ _ _ _

section Call

variable {s : Shm} {page : List Nat} {pid : Nat}

theorem updateNumset_page (h1 : s.status = 1) (hlen : page.length < 2 ^ 32) (after : Mem)
    (slab : Stream' Bool) :
    updateNumset s (pageBytes page) after slab pid s.version =
      if page = [] then (.error, s)
      else numsetRefs pid page.length s.refs
        (.ofBuf (page.flatMap utilityMqttWriteUint64) after slab) s := by
  have hne : (pageBytes page).length ≠ 0 := by
    rw [pageBytes, List.length_append, length_writeUint32]
    omega
  simp only [updateNumset, hne, h1, ne_eq, not_true_eq_false, if_false]
  rw [pageBytes, Dec.readUint32_write, Nat.mod_eq_of_lt hlen]
  simp only [ngxUintxError, List.length_eq_zero_iff]

variable (ht : SetTable s) (h1 : s.status = 1) (hlen : page.length < 2 ^ 32) (hv : ∀ v ∈ page, NumOk v)
include ht h1 hlen hv

omit h1 hlen hv in
theorem SetTable.one {k : Nat} (hk : k ∈ s.refs) (hid : (s.policyAt k).id = pid) :
    ∀ j ∈ s.refs, s.Hit pid j → j = k :=
  fun j hj hhit => ht.unique j hj k hk (hhit.2.trans hid.symm)

/-- A bit-backed set that is referred to once gets exactly the page. -/
theorem updateNumset_vector {k : Nat} (hk : k ∈ s.refs) (hhit : s.Hit pid k)
    (hb : (s.policyAt k).bitsetId = 1) (hcount : s.refs.count k = 1) {bv : BitVector}
    (hbv : s.globalBitvector1 = some bv) (hne : page ≠ []) (after : Mem) (slab : Stream' Bool) :
    updateNumset s (pageBytes page) after slab pid s.version =
      (.ok, s.putVector k ((s.policyAt k).datalen + page.length) (page.foldl utilityBitVectorSet bv)) := by
  have hkind := ht.kind k hk hhit.1
  rw [if_pos hb] at hkind
  have hof : s.bitVectorOf (s.policyAt k) = some bv := by simp [Shm.bitVectorOf, hkind, hbv]
  rw [updateNumset_page h1 hlen, if_neg hne, ← List.append_nil (page.flatMap utilityMqttWriteUint64),
    numsetRefs_vector hcount (ht.one hk hhit.2) hhit hb hof (by rw [setNumset_page hv]), setNumset_page hv]

/-- A tree gets exactly the page, with memory for it. -/
theorem updateNumset_tree {k : Nat} (hk : k ∈ s.refs) (hhit : s.Hit pid k)
    (hb : (s.policyAt k).bitsetId ≠ 1) {t : NgxRbtree Nat} (hd : (s.policyAt k).data = .rbtree t)
    (hne : page ≠ []) (after : Mem) {slab : Stream' Bool} (hmem : Granted page.length slab) :
    updateNumset s (pageBytes page) after slab pid s.version =
      (.ok, s.putTree k ((s.policyAt k).datalen + page.length) (page.foldl ngxRbtreeInsert t)) := by
  rw [updateNumset_page h1 hlen, if_neg hne, ← List.append_nil (page.flatMap utilityMqttWriteUint64),
    numsetRefs_tree hk (ht.one hk hhit.2) hhit hb hd, insertNumset_granted hv hmem]
  rfl

/-- **A page is taken** if it is not empty and, for a bit-backed set, the vector is there and
referred to once. -/
theorem updateNumset_ok {k : Nat} (hk : k ∈ s.refs) (hhit : s.Hit pid k) (hne : page ≠ [])
    (hb : (s.policyAt k).bitsetId = 1 → s.globalBitvector1.isSome ∧ s.refs.count k = 1) (after : Mem) :
    (updateNumset s (pageBytes page) after (Stream'.const true) pid s.version).1 = .ok := by
  have hkind := ht.kind k hk hhit.1
  by_cases hb1 : (s.policyAt k).bitsetId = 1
  · obtain ⟨hbv, hcount⟩ := hb hb1
    obtain ⟨bv, hbv⟩ := Option.isSome_iff_exists.1 hbv
    rw [updateNumset_vector ht h1 hlen hv hk hhit hb1 hcount hbv hne]
  · rw [if_neg hb1] at hkind
    obtain ⟨t, hd⟩ := hkind
    rw [updateNumset_tree ht h1 hlen hv hk hhit hb1 hd hne after (granted_const _)]

/-- The converse, with zeros behind the page. -/
theorem updateNumset_ok_only {k : Nat} (hk : k ∈ s.refs) (hhit : s.Hit pid k) {slab : Stream' Bool}
    (hok : (updateNumset s (pageBytes page) (Stream'.const 0) slab pid s.version).1 = .ok) :
    page ≠ [] ∧ if (s.policyAt k).bitsetId = 1 then s.globalBitvector1.isSome ∧ s.refs.count k = 1
      else Granted page.length slab := by
  rw [updateNumset_page h1 hlen] at hok
  by_cases hne : page = []
  · simp [hne] at hok
  · rw [if_neg hne] at hok
    refine ⟨hne, ?_⟩
    split
    · exact numsetRefs_vector_ok hk (ht.one hk hhit.2) hhit ‹_› hv hne hok
    · rename_i hb
      have hkind := ht.kind k hk hhit.1
      rw [if_neg hb] at hkind
      obtain ⟨t, hd⟩ := hkind
      rw [← List.append_nil (page.flatMap utilityMqttWriteUint64),
        numsetRefs_tree hk (ht.one hk hhit.2) hhit hb hd] at hok
      exact granted_of_insertNumset hv (rcOf_eq_ok.1 hok)

/-- Whatever fails, a key of a tree was there before, or it is a number of the page and the tree
belongs to the policy of the page. -/
theorem updateNumset_keys {after : Mem} {slab : Stream' Bool} {i : Nat} {t' : NgxRbtree Nat}
    (hd : ((updateNumset s (pageBytes page) after slab pid s.version).2.policyAt i).data = .rbtree t')
    {v : Nat} (hmem : v ∈ t'.keys) :
    (∃ t, (s.policyAt i).data = .rbtree t ∧ v ∈ t.keys) ∨ (s.policyAt i).id = pid ∧ v ∈ page := by
  rw [updateNumset_page h1 hlen] at hd
  split at hd
  · exact Or.inl ⟨t', hd, hmem⟩
  · by_cases hit : ∃ k ∈ s.refs, s.Hit pid k ∧ (s.policyAt k).bitsetId ≠ 1
    · obtain ⟨k, hk, hhit, hb⟩ := hit
      have hkind := ht.kind k hk hhit.1
      rw [if_neg hb] at hkind
      obtain ⟨t, ht'⟩ := hkind
      rw [← List.append_nil (page.flatMap utilityMqttWriteUint64),
        numsetRefs_tree hk (ht.one hk hhit.2) hhit hb ht'] at hd
      by_cases hik : i = k
      · subst hik
        rw [data_putTree (ht.bound i hk)] at hd
        obtain rfl := PolicyData.rbtree.inj hd
        rcases mem_keys_insertNumset hv hmem with hold | hnew
        · exact Or.inl ⟨t, ht', hold⟩
        · exact Or.inr ⟨hhit.2, hnew⟩
      · rw [policyAt_putTree_of_ne hik] at hd
        exact Or.inl ⟨t', hd, hmem⟩
    · push Not at hit
      exact Or.inl ⟨t', numsetRefs_vector_trees hit _ hd, hmem⟩

end Call

end NgxPlus.Diversion
