import NgxPlus.Diversion.SharedVector

/-!
# A policy load that failed (`diversion_decode_policy_failure`, `ngx_lua_diversion_module.cpp:1715-1718`)

Whatever was built when the load fails is dropped by `free_diversion_policy`: the pool is initialised
again, the groups are forgotten and the vector is cleared. One failure comes before all that and
returns without it, a message of no policies (`.cpp:1462`).

Both leave the state as it was, since a state without groups is blank (`Blank`): no policies,
and the vector of a fresh zone. For the vector this needs that whatever was set since is cleared
again: `utility_bit_vector_clear` stops in front of the byte at `size`, which a 32-bit number does not
reach (`clear_foldl`).
-/

namespace NgxPlus.Diversion

open ByteMem Decode Trace

/-! ## Clearing -/

/-- `clear` undoes `set`. -/
theorem clear_set {bv : BitVector} (hc : bv.Covers32) {v : Nat} (hv : v < 2 ^ 32) :
    utilityBitVectorClear (utilityBitVectorSet bv v) = utilityBitVectorClear bv := by
  have hpos : v >>> 3 < bv.size := by
    rw [Nat.shiftRight_eq_div_pow]
    exact Covers32.div_lt hc hv
  rw [utilityBitVectorSet, if_neg (by omega), utilityBitVectorClear, utilityBitVectorClear]
  congr 1
  funext i
  split
  · rfl
  · rename_i hi
    have hi : ¬ i < bv.size := hi
    exact Function.update_of_ne (by omega) _ _

theorem clear_foldl {bv : BitVector} (hc : bv.Covers32) {vals : List Nat} (hv : ∀ v ∈ vals, v < 2 ^ 32) :
    utilityBitVectorClear (vals.foldl utilityBitVectorSet bv) = utilityBitVectorClear bv := by
  induction vals generalizing bv with
  | nil => rfl
  | cons v vals ih =>
    have hc' : (utilityBitVectorSet bv v).Covers32 := by rwa [BitVector.Covers32, size_bitVectorSet]
    rw [List.foldl_cons, ih hc' fun w hw => hv w (List.mem_cons_of_mem _ hw), clear_set hc (hv v List.mem_cons_self)]

/-! ## Blank states -/

/-- The vector of a fresh zone. -/
def freshVector (hasBitset : Bool) : Option BitVector := (initialState hasBitset).globalBitvector1

/-- Cleared, the vector is a fresh one. -/
def Wipes (hasBitset : Bool) (v : Option BitVector) : Prop := v.map utilityBitVectorClear = freshVector hasBitset

/-- Without groups there is nothing of a policy. -/
structure Blank (hasBitset : Bool) (s : Shm) : Prop where
  wipes : Wipes hasBitset s.globalBitvector1
  policys : s.policyGroup = [] → s.policys = []
  vector : s.policyGroup = [] → s.globalBitvector1 = freshVector hasBitset

section Blank

variable {hasBitset : Bool} {s s' : Shm}

theorem wipes_freshVector (hasBitset : Bool) : Wipes hasBitset (freshVector hasBitset) := by
  cases hasBitset with
  | false => rfl
  | true =>
    refine congrArg some ?_
    rw [utilityBitVectorClear]
    congr 1
    funext i
    exact ite_self _

theorem blank_initialState (hasBitset : Bool) : Blank hasBitset (initialState hasBitset) :=
  ⟨wipes_freshVector hasBitset, fun _ => rfl, fun _ => rfl⟩

/-- A fresh vector has room for every 32-bit number, so one that wipes has. -/
theorem Wipes.covers {bv : BitVector} (h : Wipes hasBitset (some bv)) : bv.Covers32 := by
  cases hasBitset with
  | false => cases h
  | true =>
    have h : some (utilityBitVectorClear bv) = some (ngxHttpLuaDiversionInitBitsetZone fun _ => 0) := h
    have hsize := congrArg BitVector.size (Option.some.inj h)
    rw [size_bitVectorClear] at hsize
    rw [BitVector.Covers32, hsize]
    exact covers32_initBitsetZone _

theorem Wipes.foldl {v : Option BitVector} (h : Wipes hasBitset v) {vals : List Nat} (hv : ∀ w ∈ vals, w < 2 ^ 32) :
    Wipes hasBitset (v.map fun bv => vals.foldl utilityBitVectorSet bv) := by
  cases v with
  | none => exact h
  | some bv =>
    rw [Wipes, Option.map_some, Option.map_some, clear_foldl h.covers hv]
    exact h

/-- Groups, policies and vector are those of `s`. -/
def SamePart (s s' : Shm) : Prop :=
  s'.policyGroup = s.policyGroup ∧ s'.policys = s.policys ∧ s'.globalBitvector1 = s.globalBitvector1

theorem Blank.of_same (h : Blank hasBitset s) (hs : SamePart s s') : Blank hasBitset s' := by
  obtain ⟨hg, hp, hv⟩ := hs
  refine ⟨by rw [hv]; exact h.wipes, fun he => ?_, fun he => ?_⟩
  · rw [hp]
    exact h.policys (hg.symm.trans he)
  · rw [hv]
    exact h.vector (hg.symm.trans he)

theorem Blank.free (h : Blank hasBitset s) : Blank hasBitset (freeDiversionPolicy s) := by
  have hv : (freeDiversionPolicy s).globalBitvector1 = freshVector hasBitset := h.wipes
  exact ⟨by rw [hv]; exact wipes_freshVector hasBitset, fun _ => rfl, fun _ => hv⟩

/-- With groups, only the vector matters. -/
theorem blank_of_groups (hw : Wipes hasBitset s.globalBitvector1) (hg : s.policyGroup ≠ []) : Blank hasBitset s :=
  ⟨hw, fun h => absurd h hg, fun h => absurd h hg⟩

/-- A blank state is what freeing makes of it. -/
theorem Blank.free_eq (h : Blank hasBitset s) (hg : s.policyGroup = []) : freeDiversionPolicy s = s := by
  have hv : s.globalBitvector1.map utilityBitVectorClear = s.globalBitvector1 := by
    rw [h.vector hg]
    exact wipes_freshVector hasBitset
  rw [freeDiversionPolicy, hv, ← hg, ← h.policys hg]

end Blank

/-! ## Every state of a run is blank -/

section Steps

variable {hasBitset : Bool} {s s' : Shm}

theorem makeRoom_part (s : Shm) : SamePart s (makeRoom s) ∨ SamePart (freeDiversionPolicy s) (makeRoom s) := by
  rw [makeRoom]
  split
  · exact Or.inr ⟨rfl, rfl, rfl⟩
  · exact Or.inl ⟨rfl, rfl, rfl⟩

theorem RuntimeOutcome.part {m : Dec} {rc : Rc} (h : RuntimeOutcome s m rc s') :
    SamePart s s' ∨ SamePart (freeDiversionPolicy s) s' := by
  cases h with
  | same | refused | declined => exact Or.inl ⟨rfl, rfl, rfl⟩
  | failed => exact makeRoom_part s
  | installed => exact makeRoom_part s

theorem readTable_wipes {rodata : Rodata} {len : Nat} {d : Dec} {v : Option BitVector} {t : PolicyTable}
    (hw : Wipes hasBitset v) (h : readTable rodata len (d, v) = .ok t) : Wipes hasBitset t.globalBitvector1 := by
  obtain ⟨d1, -, h⟩ := bind_eq_ok.1 h
  obtain ⟨⟨ps, s1⟩, hps, h⟩ := bind_eq_ok.1 h
  obtain ⟨groups, -, h⟩ := bind_eq_ok.1 h
  obtain rfl := Except.ok.inj h
  refine (times_all (I := fun s : PolicyDec => Wipes hasBitset s.2) (P := fun _ => True) ?_ hw hps).2
  rintro ⟨d, v⟩ p ⟨d', v'⟩ hw hp
  refine ⟨trivial, ?_⟩
  rw [readPolicy_vector hp]
  exact hw.foldl fun _ => decodedNumbers_lt

theorem putVector_wipes {k len n : Nat} {d : Dec} {bv : BitVector} (hbv : s.bitVectorOf (s.policyAt k) = some bv)
    (hw : Wipes hasBitset s.globalBitvector1) :
    Wipes hasBitset (s.putVector k len (setNumset n d bv).2.1).globalBitvector1 := by
  rw [(bitVectorOf_eq_some hbv).2] at hw
  rw [Shm.putVector, (setNumset_eq n d bv).2.1]
  exact Wipes.foldl hw fun _ => numbersTaken_lt

/-- A call for numbers keeps what the vector is wiped to. -/
def KeepsWipes (hasBitset : Bool) (s s' : Shm) : Prop :=
  Wipes hasBitset s.globalBitvector1 → Wipes hasBitset s'.globalBitvector1

theorem KeepsWipes.trans {a b c : Shm} (h : KeepsWipes hasBitset a b) (h' : KeepsWipes hasBitset b c) :
    KeepsWipes hasBitset a c :=
  fun hw => h' (h hw)

theorem updateNumset_wipes (s : Shm) (buf : Bytes) (after : Mem) (slab : Stream' Bool) (pid ver : Nat) :
    KeepsWipes hasBitset s (updateNumset s buf after slab pid ver).2 := by
  simp only [updateNumset]
  split_ifs
  · exact id
  · exact id
  · exact id
  · exact id
  · exact numsetRefs_rel (fun _ => id) .trans pid _ (fun _ _ _ _ _ _ _ => id)
      (fun _ _ _ _ _ _ hbv => putVector_wipes hbv) _ _ _

theorem updateBitvector_wipes (s : Shm) (buf : Bytes) (after : Mem) (slab : Stream' Bool) (pid ver : Nat) :
    KeepsWipes hasBitset s (updateBitvector s buf after slab pid ver).2 := by
  simp only [updateBitvector]
  split_ifs
  · exact id
  · exact id
  · exact id
  · exact id
  · exact id
  · exact bitvectorRefs_rel (fun _ => id) .trans pid _ (fun _ _ _ _ _ _ hbv => putVector_wipes hbv) _ _ _

/-- **One call** keeps states blank. -/
theorem blank_step (h : Blank hasBitset s) (c : Call) : Blank hasBitset (step s c) := by
  cases c with
  | updateRuntimeinfo lock buf after slab =>
    have hl : Blank hasBitset { s with lock := lock } := h.of_same ⟨rfl, rfl, rfl⟩
    rcases updateRuntimeinfo_cases { s with lock := lock } buf after slab with ⟨-, he⟩ | ⟨-, ho⟩
    · rw [step, exec, he]
      exact hl
    · rcases ho.part with hs | hs
      · exact hl.of_same hs
      · exact hl.free.of_same hs
  | updatePolicy rodata buf after slab ver =>
    simp only [step, exec, updatePolicy, diversionDecodePolicy]
    split
    · exact h
    · split
      · exact h
      · split
        · rename_i t ht
          exact blank_of_groups (readTable_wipes h.wipes ht) (readTable_ok ht).1.nonempty
        · exact h
        · exact h.free
  | updateNumset buf after slab pid ver =>
    rw [step, exec]
    by_cases hg : s.policyGroup = []
    · rw [updateNumset_nil hg]
      exact h
    · refine blank_of_groups (updateNumset_wipes s buf after slab pid ver h.wipes) ?_
      rwa [(updateNumset_sameTable s buf after slab pid ver).frame.policyGroup]
  | updateBitvector buf after slab pid ver =>
    rw [step, exec]
    by_cases hg : s.policyGroup = []
    · rw [updateBitvector_nil hg]
      exact h
    · refine blank_of_groups (updateBitvector_wipes s buf after slab pid ver h.wipes) ?_
      rwa [(updateBitvector_sameTable s buf after slab pid ver).frame.policyGroup]
  | activePolicy ver =>
    rcases activePolicy_cases s ver with he | ⟨-, -, he⟩
    · rw [step, exec, he]
      exact h
    · rw [step, exec, he]
      exact h.of_same ⟨rfl, rfl, rfl⟩

theorem blank_run (hasBitset : Bool) (cs : List Call) : Blank hasBitset (run step (initialState hasBitset) cs) :=
  run_inv step (I := Blank hasBitset) (C := fun _ _ => True) (fun _ c h _ => blank_step h c)
    (blank_initialState hasBitset) (always_of_forall step (fun _ _ => trivial) _ cs)

end Steps

/-! ## The retry -/

/-- `pgshpool`: as `ngx_slab_init` leaves it, or not. -/
inductive Pool
  | blank
  | used
deriving DecidableEq, Repr

/-- The pool behind a call. -/
def poolAfter (rodata : Rodata) (s : Shm) (d : Dec) (ver : Nat) (pool : Pool) : Pool :=
  if ver ≠ s.version ∨ s.policyGroup ≠ [] then pool
  else if d.readUint16.1 = ngxUintxError then pool
  else match (diversionDecodePolicy rodata s d ver).1 with
    | .error => .blank
    | _ => .used

/-- `s` with the table that a fresh zone has. -/
def emptyTable (hasBitset : Bool) (s : Shm) : Shm :=
  { s with policyGroup := [], policys := [], globalBitvector1 := freshVector hasBitset }

/-- What the message `d₁` leaves, for the message `d₂` that comes next. -/
structure Retryable (hasBitset : Bool) (rodata : Rodata) (s : Shm) (d₁ d₂ : Dec) : Prop where
  status : (diversionDecodePolicy rodata s d₁ s.version).2.status = s.status
  version : (diversionDecodePolicy rodata s d₁ s.version).2.version = s.version
  envhosts : (diversionDecodePolicy rodata s d₁ s.version).2.envhosts = s.envhosts
  src : (diversionDecodePolicy rodata s d₁ s.version).2.src = s.src
  to_ : (diversionDecodePolicy rodata s d₁ s.version).2.to_ = s.to_
  groups : (diversionDecodePolicy rodata s d₁ s.version).2.policyGroup = []
  /-- The second message finds the memory that the first one found. -/
  pool : poolAfter rodata s d₁ s.version .blank = .blank
  again : diversionDecodePolicy rodata (diversionDecodePolicy rodata s d₁ s.version).2 d₂ s.version =
    diversionDecodePolicy rodata (emptyTable hasBitset s) d₂ s.version

section Retry

variable {hasBitset : Bool} {s : Shm}

/-- A failed load takes a blank state back to itself. -/
theorem failed_eq (h : Blank hasBitset s) (hg : s.policyGroup = []) {rodata : Rodata} {d : Dec} {ver : Nat}
    (he : (diversionDecodePolicy rodata s d ver).1 = .error) : (diversionDecodePolicy rodata s d ver).2 = s := by
  have ho := diversionDecodePolicy_outcome rodata s d ver
  rw [he] at ho
  generalize (diversionDecodePolicy rodata s d ver).2 = s' at ho
  cases ho with
  | refused => rfl
  | failed => exact h.free_eq hg

theorem poolAfter_failed {rodata : Rodata} {d : Dec} {ver : Nat}
    (he : (diversionDecodePolicy rodata s d ver).1 = .error) : poolAfter rodata s d ver .blank = .blank := by
  rw [poolAfter, he]
  split
  · rfl
  · split <;> rfl

theorem emptyTable_eq (h : Blank hasBitset s) (hg : s.policyGroup = []) : emptyTable hasBitset s = s := by
  rw [emptyTable, ← h.vector hg, ← h.policys hg, ← hg]

end Retry

/-- **A failed load can be retried**: in every state of a run that has no groups, whatever message
failed for whatever reason, the next message meets the state and the memory of an empty table. -/
theorem retryable_of_failed (hasBitset : Bool) (cs : List Call) (rodata : Rodata) (d₁ d₂ : Dec)
    (hg : (run step (initialState hasBitset) cs).policyGroup = [])
    (he : (diversionDecodePolicy rodata (run step (initialState hasBitset) cs) d₁
      (run step (initialState hasBitset) cs).version).1 = .error) :
    Retryable hasBitset rodata (run step (initialState hasBitset) cs) d₁ d₂ := by
  have hblank := blank_run hasBitset cs
  have hsame := failed_eq hblank hg he
  refine ⟨?_, ?_, ?_, ?_, ?_, ?_, poolAfter_failed he, ?_⟩
  · rw [hsame]
  · rw [hsame]
  · rw [hsame]
  · rw [hsame]
  · rw [hsame]
  · rw [hsame]
    exact hg
  · rw [hsame, emptyTable_eq hblank hg]

/-- An `ipset` of two numbers that go into the vector, and a group that refers to `pid`. -/
def ipsetMessage (pid : UInt8) : Bytes :=
  [0, 1,
   0, 0, 0, 7, 0, 5, 105, 112, 115, 101, 116, 0, 1, 0, 2, 0, 0, 0, 5, 0, 0, 0, 6,
   0, 1,
   0, 0, 0, 1, 0, 0, 0, 0, 0, 1, 0, 0, 0, pid]

theorem retryable_ipset :
    ((initialState true).policyGroup = [] ∧
      (diversionDecodePolicy (fun _ => Stream'.const 0) (initialState true) (.full (ipsetMessage 8) (Stream'.const 0)) 0).1 =
        .error) ∧
      Retryable true (fun _ => Stream'.const 0) (initialState true) (.full (ipsetMessage 8) (Stream'.const 0))
        (.full (ipsetMessage 7) (Stream'.const 0)) := by
  have he : (diversionDecodePolicy (fun _ => Stream'.const 0) (initialState true)
      (.full (ipsetMessage 8) (Stream'.const 0)) 0).1 = .error := by
    decide +kernel
  exact ⟨⟨rfl, he⟩, retryable_of_failed true [] _ _ _ rfl he⟩

end NgxPlus.Diversion
