import NgxPlus.Lib.Trace
import NgxPlus.Diversion.Unchecked
import NgxPlus.Diversion.Origin
import NgxPlus.Diversion.Sync

/-!
# A set in the tree and in the vector

A set (`aidset`, `cidset`, `oidset`) is a tree, or the bit vector when it was sent with bitset id 1.
`feed` is a sequence of `update_numset` calls for one set that started empty. In the tree branch
`update_numset` returns behind the numbers; in the vector branch it goes on to the next reference
with the cursor where the numbers ended. So both stores hold the numbers of the messages,
but the vector only where one group refers to the set, and the tree as soon as one does
(`feed_exact_iff`).
-/

namespace NgxPlus.Diversion

open ByteMem Decode Rbtree Trace

/-! ## Messages -/

/-- `u32 n, u64 × n`. -/
structure NumsetMessage where
  page : List Nat
  numOk : ∀ v ∈ page, NumOk v
  short : page.length < 2 ^ 32

/-- A message with the allocations to come. -/
structure NumsetCall where
  msg : NumsetMessage
  slab : Stream' Bool

/-- The call, with `c.2` behind the message in memory. -/
def NumsetCall.exec (pid : Nat) (s : Shm) (c : NumsetCall × Mem) : Rc × Shm :=
  updateNumset s (pageBytes c.1.msg.page) c.2 c.1.slab pid s.version

def feed (pid : Nat) (s : Shm) (c : NumsetCall × Mem) : Shm := (NumsetCall.exec pid s c).2

/-- The user's value of the kind of the set at `k`. -/
def setValue (s : Shm) (k : Nat) (u : DivUserInfo) : Nat := u.reqVal (confPtype (s.policyAt k).type).cvalue

/-- Every call succeeds, and then the set accepts exactly the numbers that were sent. -/
structure FeedExact (s : Shm) (k : Nat) (cs : List (NumsetCall × Mem)) : Prop where
  ok : Always (feed (s.policyAt k).id) (fun s' c => (NumsetCall.exec (s.policyAt k).id s' c).1 = .ok) s cs
  accepts : ∀ u, setValue s k u < 2 ^ 32 →
    (policyVerdict (run (feed (s.policyAt k).id) s cs) u ((run (feed (s.policyAt k).id) s cs).policyAt k) = .pass ↔
      ∃ c ∈ cs, setValue s k u ∈ c.1.msg.page)

/-! ## The store -/

/-- The bit of `v` is set. -/
def VectorHas (s : Shm) (v : Nat) : Prop := ∃ bv, s.globalBitvector1 = some bv ∧ utilityBitVectorGet bv v = true

/-- The set at `k` holds the numbers of `P`. -/
def StoreIs (s : Shm) (k : Nat) (P : Nat → Prop) : Prop :=
  if (s.policyAt k).bitsetId = 1 then
    (s.policyAt k).data = .bitVector ∧ VectorCovers s ∧
      ∀ v < 2 ^ 32, VectorHas s v ↔ P v
  else ∃ t, (s.policyAt k).data = .rbtree t ∧ ∀ v, v ∈ t.keys ↔ P v

/-- An accepted table that is not active, with a set at `k`. -/
structure SetAt (s : Shm) (k : Nat) : Prop where
  status : s.status = 1
  table : SetTable s
  isSet : s.stypeAt k = .rbtree
  /-- No other referenced policy is in the vector if it is. -/
  alone : (s.policyAt k).bitsetId = 1 → ∀ j ∈ s.refs, s.stypeAt j = .rbtree → (s.policyAt j).bitsetId = 1 → j = k

/-- What a call needs: a number in it, and a store. -/
def Feedable (s : Shm) (k : Nat) (c : NumsetCall) : Prop :=
  c.msg.page ≠ [] ∧
    if (s.policyAt k).bitsetId = 1 then s.globalBitvector1.isSome ∧ s.refs.count k = 1
    else k ∈ s.refs ∧ Granted c.msg.page.length c.slab

section Store

variable {s s' : Shm} {k : Nat} {P : Nat → Prop}

theorem feed_sameTable (pid : Nat) (s : Shm) (c : NumsetCall × Mem) : SameTable s (feed pid s c) :=
  updateNumset_sameTable _ _ _ _ _ _

theorem SetAt.of_same (h : SetAt s k) (hs : SameTable s s') : SetAt s' k := by
  refine ⟨hs.frame.status.trans h.status, h.table.of_same hs, (hs.stypeAt k).trans h.isSet, ?_⟩
  intro hb j hj hst hbj
  rw [(hs.policy _).bitsetId] at hb hbj
  rw [hs.refs] at hj
  rw [hs.stypeAt] at hst
  exact h.alone hb j hj hst hbj

theorem Feedable.of_same {c : NumsetCall} (h : Feedable s k c) (hs : SameTable s s') : Feedable s' k c := by
  rw [Feedable, (hs.policy k).bitsetId, hs.isSome, hs.refs]
  exact h

theorem StoreIs.congr {Q : Nat → Prop} (h : StoreIs s k P) (he : ∀ v, P v ↔ Q v) : StoreIs s k Q := by
  obtain rfl : P = Q := funext fun v => propext (he v)
  exact h

/-- **One call**: the store takes the message's numbers. -/
theorem StoreIs.feed (h : StoreIs s k P) (hs : SetAt s k) {c : NumsetCall} (hc : Feedable s k c) (after : Mem) :
    (NumsetCall.exec (s.policyAt k).id s (c, after)).1 = .ok ∧
      StoreIs (feed (s.policyAt k).id s (c, after)) k fun v => P v ∨ v ∈ c.msg.page := by
  have hsame := feed_sameTable (s.policyAt k).id s (c, after)
  have hhit : s.Hit (s.policyAt k).id k := ⟨hs.isSet, rfl⟩
  obtain ⟨hne, hc⟩ := hc
  rw [StoreIs] at h
  rw [StoreIs, (hsame.policy k).bitsetId]
  by_cases hb : (s.policyAt k).bitsetId = 1
  · rw [if_pos hb] at h hc ⊢
    obtain ⟨hd, hcov, hget⟩ := h
    obtain ⟨hsome, hcount⟩ := hc
    obtain ⟨bv, hbv⟩ := Option.isSome_iff_exists.1 hsome
    have hk : k ∈ s.refs := List.count_pos_iff.1 (by omega)
    have hcall := updateNumset_vector hs.table hs.status c.msg.short c.msg.numOk hk hhit hb hcount hbv hne after c.slab
    refine ⟨congrArg Prod.fst hcall, (hsame.policy k).vector hd, ?_⟩
    have hvec : (Diversion.feed (s.policyAt k).id s (c, after)).globalBitvector1 =
        some (c.msg.page.foldl utilityBitVectorSet bv) := by
      rw [Diversion.feed, NumsetCall.exec, hcall]
      rfl
    refine ⟨VectorCovers.of_size hcov hsame.frame.size, fun v hlt => ?_⟩
    · rw [← hget v hlt, VectorHas, VectorHas, hbv, hvec]
      simp only [Option.some.injEq, exists_eq_left']
      exact bitVectorGet_foldl (hcov bv hbv) (fun w hw => (c.msg.numOk w hw).2) v
  · rw [if_neg hb] at h hc ⊢
    obtain ⟨t, hd, hkeys⟩ := h
    obtain ⟨hk, hmem⟩ := hc
    have hcall := updateNumset_tree hs.table hs.status c.msg.short c.msg.numOk hk hhit hb hd hne after hmem
    refine ⟨congrArg Prod.fst hcall, c.msg.page.foldl ngxRbtreeInsert t, ?_, fun v => ?_⟩
    · rw [Diversion.feed, NumsetCall.exec, hcall]
      exact data_putTree (hs.table.bound k hk) _ _
    · rw [mem_keys_foldl, hkeys]

/-- **All calls**: the store takes what was sent. -/
theorem StoreIs.run (h : StoreIs s k P) (hs : SetAt s k) {cs : List (NumsetCall × Mem)}
    (hc : ∀ c ∈ cs, Feedable s k c.1) :
    Always (Diversion.feed (s.policyAt k).id) (fun s' c => (NumsetCall.exec (s.policyAt k).id s' c).1 = .ok) s cs ∧
      SameTable s (Trace.run (Diversion.feed (s.policyAt k).id) s cs) ∧
      StoreIs (Trace.run (Diversion.feed (s.policyAt k).id) s cs) k fun v => P v ∨ ∃ c ∈ cs, v ∈ c.1.msg.page := by
  induction cs generalizing s P with
  | nil => exact ⟨trivial, .refl s, h.congr fun v => by simp⟩
  | cons c cs ih =>
    obtain ⟨hok, hstore⟩ := h.feed hs (hc c List.mem_cons_self) c.2
    have hsame := feed_sameTable (s.policyAt k).id s c
    have hid : ((Diversion.feed (s.policyAt k).id s c).policyAt k).id = (s.policyAt k).id := (hsame.policy k).id
    obtain ⟨hall, hsame', hrun⟩ := ih hstore (hs.of_same hsame)
      fun c' hc' => (hc c' (List.mem_cons_of_mem _ hc')).of_same hsame
    rw [hid] at hall hsame' hrun
    refine ⟨⟨hok, hall⟩, hsame.trans hsame', hrun.congr fun v => ?_⟩
    simp only [List.mem_cons, exists_eq_or_imp, or_assoc]

theorem ofBool_eq_pass {b : Bool} : Verdict.ofBool b = .pass ↔ b = true := by
  cases b <;> simp [Verdict.ofBool]

/-- What the engine makes of the store. -/
theorem accepts_of_storeIs (h : StoreIs s k P) (hset : s.stypeAt k = .rbtree) (h0 : ¬ P 0) {u : DivUserInfo}
    (hlt : setValue s k u < 2 ^ 32) : policyVerdict s u (s.policyAt k) = .pass ↔ P (setValue s k u) := by
  have hst : (confPtype (s.policyAt k).type).stype = .rbtree := hset
  have hv : u.reqVal (confPtype (s.policyAt k).type).cvalue = setValue s k u := rfl
  rw [StoreIs] at h
  simp only [policyVerdict, hst, hv]
  by_cases hzero : setValue s k u = 0
  · simp [hzero, h0]
  · rw [if_neg hzero]
    by_cases hb : (s.policyAt k).bitsetId = 1
    · rw [if_pos hb] at h ⊢
      obtain ⟨hd, -, hget⟩ := h
      rw [← hget _ hlt, VectorHas, Shm.bitVectorOf, hd]
      cases s.globalBitvector1 with
      | none => simp [bitVectorVerdict]
      | some bv => simp [bitVectorVerdict, ofBool_eq_pass]
    · rw [if_neg hb] at h ⊢
      obtain ⟨t, hd, hkeys⟩ := h
      simp only [hd]
      rw [ofBool_eq_pass, lookup4diversion_iff, hkeys]

/-! ## A set that no group refers to -/

/-- The walk over other references leaves the set alone. -/
theorem numsetRefs_off (pid n : Nat) {ks : List Nat} (hk : k ∉ ks)
    (hb : (s.policyAt k).bitsetId = 1 → ∀ j ∈ ks, s.stypeAt j = .rbtree → (s.policyAt j).bitsetId ≠ 1) (d : Dec) :
    (numsetRefs pid n ks d s).2.policyAt k = s.policyAt k ∧
      ((s.policyAt k).bitsetId = 1 → (numsetRefs pid n ks d s).2.globalBitvector1 = s.globalBitvector1) := by
  induction ks generalizing s d with
  | nil => exact ⟨rfl, fun _ => rfl⟩
  | cons j ks ih =>
    obtain ⟨hjk, hks⟩ := not_or.1 (List.mem_cons.not.1 hk)
    have hrest := fun hb1 i hi => hb hb1 i (List.mem_cons_of_mem _ hi)
    simp only [numsetRefs]
    split
    · rename_i hhit
      split
      · rename_i hb1
        have hno : (s.policyAt k).bitsetId ≠ 1 := fun h => hb h j List.mem_cons_self hhit.1 hb1
        split
        · exact ⟨rfl, fun _ => rfl⟩
        · rename_i bv hbv
          have hsame := sameTable_putVector hbv (size_setNumset n d bv) ((s.policyAt j).datalen + n)
          have hput := policyAt_putVector_of_ne (s := s) hjk ((s.policyAt j).datalen + n) (setNumset n d bv).2.1
          split
          · have hrec := ih hks (s := s.putVector j ((s.policyAt j).datalen + n) (setNumset n d bv).2.1)
              (fun h => absurd (hput ▸ h) hno) (setNumset n d bv).2.2
            rw [hput] at hrec
            exact ⟨hrec.1, fun h => absurd h hno⟩
          · exact ⟨hput, fun h => absurd h hno⟩
      · split
        · exact ⟨policyAt_putTree_of_ne hjk _ _, fun _ => rfl⟩
        · exact ⟨rfl, fun _ => rfl⟩
    · exact ih hks hrest d

theorem StoreIs.off (h : StoreIs s k P) (hs : SetAt s k) (hk : k ∉ s.refs) (pid : Nat) (c : NumsetCall × Mem) :
    StoreIs (Diversion.feed pid s c) k P := by
  have hsame := feed_sameTable pid s c
  have hoff : (Diversion.feed pid s c).policyAt k = s.policyAt k ∧
      ((s.policyAt k).bitsetId = 1 → (Diversion.feed pid s c).globalBitvector1 = s.globalBitvector1) := by
    rw [Diversion.feed, NumsetCall.exec, updateNumset_page hs.status c.1.msg.short]
    split
    · exact ⟨rfl, fun _ => rfl⟩
    · exact numsetRefs_off _ _ hk (fun hb j hj hst hbj => hk (hs.alone hb j hj hst hbj ▸ hj)) _
  rw [StoreIs] at h ⊢
  rw [hoff.1]
  split
  · rename_i hb
    rw [if_pos hb] at h
    unfold VectorHas
    rw [hoff.2 hb]
    exact ⟨h.1, VectorCovers.of_size h.2.1 hsame.frame.size, h.2.2⟩
  · rename_i hb
    rwa [if_neg hb] at h

theorem run_sameTable (pid : Nat) (s : Shm) (cs : List (NumsetCall × Mem)) :
    SameTable s (Trace.run (Diversion.feed pid) s cs) :=
  run_inv (Diversion.feed pid) (I := fun s' => SameTable s s') (C := fun _ _ => True)
    (fun s' c h _ => h.trans (feed_sameTable pid s' c)) (.refl s) (always_of_forall _ (fun _ _ => trivial) s cs)

theorem StoreIs.off_run (h : StoreIs s k P) (hs : SetAt s k) (hk : k ∉ s.refs) (pid : Nat)
    (cs : List (NumsetCall × Mem)) : StoreIs (Trace.run (Diversion.feed pid) s cs) k P := by
  induction cs generalizing s with
  | nil => exact h
  | cons c cs ih =>
    have hsame := feed_sameTable pid s c
    exact ih (h.off hs hk pid c) (hs.of_same hsame) (by rwa [hsame.refs])

/-! ## The law -/

/-- A user with one value of every kind. -/
def sameUser (v : Nat) : DivUserInfo := ⟨[], v, v, v, v⟩

theorem setValue_sameUser (s : Shm) (k v : Nat) : setValue s k (sameUser v) = v := by
  rw [setValue, sameUser]
  match (confPtype (s.policyAt k).type).cvalue with
  | 0 | 1 | 2 | _ + 3 => rfl

/-- A call that succeeds with zeros behind its message. -/
theorem feedable_of_ok (hs : SetAt s k) (hk : k ∈ s.refs) {c : NumsetCall}
    (hok : (NumsetCall.exec (s.policyAt k).id s (c, Stream'.const 0)).1 = .ok) : Feedable s k c := by
  obtain ⟨hne, hstore⟩ := updateNumset_ok_only hs.table hs.status c.msg.short c.msg.numOk hk ⟨hs.isSet, rfl⟩ hok
  refine ⟨hne, ?_⟩
  split
  · rename_i hb
    rwa [if_pos hb] at hstore
  · rename_i hb
    rw [if_neg hb] at hstore
    exact ⟨hk, hstore⟩

/-- **Both stores** hold exactly what was sent, whatever lies behind the messages, if and only if each
message has a number, a vector is there and referred to once, a tree is referred to and gets its
memory. -/
theorem feed_exact_iff (hs : SetAt s k) (hempty : StoreIs s k fun _ => False) (calls : List NumsetCall) :
    (∀ cs, cs.map Prod.fst = calls → FeedExact s k cs) ↔ ∀ c ∈ calls, Feedable s k c := by
  constructor
  · intro hall c hc
    have hx := hall (calls.map fun c => (c, Stream'.const 0)) (by simp [Function.comp_def])
    obtain ⟨pre, post, rfl⟩ := List.append_of_mem hc
    have hok := (always_iff _).1 hx.ok _ _ _ (by rw [List.map_append, List.map_cons])
    have hsame := run_sameTable (s.policyAt k).id s (pre.map fun c => (c, Stream'.const 0))
    generalize run (feed (s.policyAt k).id) s (pre.map fun c => (c, (Stream'.const 0 : Mem))) = s₁ at hok hsame
    have hs' := hs.of_same hsame
    rw [← (hsame.policy k).id] at hok
    by_cases hk : k ∈ s.refs
    · have hf := feedable_of_ok hs' (by rwa [hsame.refs]) hok
      rwa [Feedable, (hsame.policy k).bitsetId, hsame.isSome, hsame.refs] at hf
    · -- the message was taken and its numbers were not stored
      obtain ⟨v, hv⟩ : ∃ v, v ∈ c.msg.page := by
        refine List.exists_mem_of_ne_nil _ fun h0 => ?_
        rw [NumsetCall.exec, updateNumset_page hs'.status c.msg.short, if_pos h0] at hok
        simp at hok
      have hlt := (c.msg.numOk v hv).2
      have hoff := hempty.off_run hs hk (s.policyAt k).id ((pre ++ c :: post).map fun c => (c, Stream'.const 0))
      have hend := run_sameTable (s.policyAt k).id s ((pre ++ c :: post).map fun c => (c, Stream'.const 0))
      have hno := accepts_of_storeIs hoff ((hend.stypeAt k).trans hs.isSet) id (u := sameUser v)
        (by rwa [setValue_sameUser])
      exact absurd ((hx.accepts (sameUser v) (by rwa [setValue_sameUser])).2
        ⟨(c, Stream'.const 0), by simp, by rwa [setValue_sameUser]⟩) (by rw [hno]; exact id)
  · rintro hall cs rfl
    have hc : ∀ c ∈ cs, Feedable s k c.1 := fun c hc => hall _ (List.mem_map_of_mem hc)
    obtain ⟨hok, hsame, hstore⟩ := hempty.run hs hc
    refine ⟨hok, fun u hlt => ?_⟩
    have hval : setValue (Trace.run (Diversion.feed (s.policyAt k).id) s cs) k u = setValue s k u := by
      rw [setValue, (hsame.policy k).type]
      rfl
    rw [accepts_of_storeIs (hstore.congr fun v => by rw [false_or]) ((hsame.stypeAt k).trans hs.isSet) ?_ (hval ▸ hlt), hval]
    rintro ⟨c, -, hmem⟩
    exact absurd (c.1.msg.numOk 0 hmem).1 (by decide)

end Store

/-! ## Where it starts -/

/-- The decoder makes such sets. -/
theorem emptySet_of_loaded {s : Shm} {t : PolicyTable} (ht : t.Loaded) (h1 : s.status = 1) {k : Nat}
    (hk : k < t.policys.length) (hset : (s.withTable t).stypeAt k = .rbtree)
    (hvec : ∀ bv, t.globalBitvector1 = some bv → bv.Covers32 ∧ ∀ v < 2 ^ 32, utilityBitVectorGet bv v = false)
    (halone : ∀ j ∈ (s.withTable t).refs, InVector ((s.withTable t).policyAt j) → j = k) :
    SetAt (s.withTable t) k ∧ StoreIs (s.withTable t) k fun _ => False := by
  have hd := (fresh_policyAt (s := s) ht hk).2.2
  rw [show (confPtype ((s.withTable t).policyAt k).type).stype = .rbtree from hset] at hd
  refine ⟨⟨h1, setTable_of_loaded ht, hset, fun _ j hj hst hb => halone j hj (Or.inr ⟨Or.inl hst, hb⟩)⟩, ?_⟩
  rw [StoreIs]
  simp only [FreshData] at hd
  split
  · rename_i hb
    rw [if_pos hb] at hd
    refine ⟨hd, fun bv hbv => (hvec bv hbv).1, fun v hlt => ?_⟩
    rw [iff_false]
    rintro ⟨bv, hbv, hget⟩
    rw [(hvec bv hbv).2 v hlt] at hget
    cases hget
  · rename_i hb
    rw [if_neg hb] at hd
    exact ⟨_, hd, by simp⟩

/-- The set 4, which two groups refer to. -/
def twoGroups (bitsetId : Nat) (data : PolicyData) (fits : data.Fits 0) : Shm :=
  { initialState true with
    status := 1
    policyGroup := List.replicate 2 ⟨.of (ascii ['/']), .of [], .of [], 1, [0]⟩
    policys := [⟨3, 0, 4, bitsetId, data, fits⟩] }

def treeTwice : Shm := twoGroups 0 (.rbtree .init) trivial

def vectorTwice : Shm := twoGroups 1 .bitVector trivial

def oneMessage : NumsetCall := ⟨⟨[5, 7], by decide, by decide⟩, Stream'.const true⟩

theorem loaded_twoGroups (bitsetId : Nat) (data : PolicyData) (fits : data.Fits 0)
    (h : FreshData .rbtree bitsetId data) :
    (⟨[⟨3, 0, 4, bitsetId, data, fits⟩], (twoGroups bitsetId data fits).policyGroup,
      (initialState true).globalBitvector1⟩ : PolicyTable).Loaded := by
  refine ⟨?_, by simp [twoGroups], ?_, ?_⟩
  · intro p hp
    obtain rfl := List.mem_singleton.1 hp
    exact ⟨by simp, by simp, h⟩
  · intro g hg
    obtain rfl := List.eq_of_mem_replicate hg
    exact ⟨by simp, by simp⟩
  · intro g hg k hk
    obtain rfl := List.eq_of_mem_replicate hg
    obtain rfl := List.mem_singleton.1 hk
    simp [FirstWithId]

theorem emptySet_twoGroups (bitsetId : Nat) (data : PolicyData) (fits : data.Fits 0)
    (h : FreshData .rbtree bitsetId data) :
    SetAt (twoGroups bitsetId data fits) 0 ∧ StoreIs (twoGroups bitsetId data fits) 0 fun _ => False := by
  refine emptySet_of_loaded (s := { initialState true with status := 1 }) (loaded_twoGroups _ _ fits h) rfl
    (by simp) rfl ?_ ?_
  · intro bv hbv
    obtain rfl := Option.some.inj hbv
    refine ⟨covers32_initBitsetZone _, fun v hlt => ?_⟩
    rw [bitVectorGet_eq (Covers32.div_lt (covers32_initBitsetZone _) hlt).le]
    simp [ngxHttpLuaDiversionInitBitsetZone, utilityBitVectorInit]
  · intro j hj _
    simpa [Shm.refs, Shm.withTable, twoGroups] using hj

theorem feed_exact_treeTwice : FeedExact treeTwice 0 [(oneMessage, Stream'.const 0)] := by
  obtain ⟨hs, hempty⟩ := emptySet_twoGroups 0 (.rbtree .init) trivial rfl
  refine (feed_exact_iff hs hempty [oneMessage]).2 ?_ _ rfl
  intro c hc
  obtain rfl := List.mem_singleton.1 hc
  exact ⟨by decide, by decide, granted_const _⟩

/-- In the vector, the second reference reads on behind the message. -/
theorem feed_fails_vectorTwice :
    (SetAt vectorTwice 0 ∧ StoreIs vectorTwice 0 fun _ => False) ∧
      ¬ FeedExact vectorTwice 0 [(oneMessage, Stream'.const 0)] := by
  refine ⟨emptySet_twoGroups 1 .bitVector trivial rfl, fun h => ?_⟩
  have hok := h.ok.1
  exact absurd hok (by decide +kernel)

end NgxPlus.Diversion
