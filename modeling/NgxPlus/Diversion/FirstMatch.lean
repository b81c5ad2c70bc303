import NgxPlus.Lib.Decimal
import NgxPlus.Diversion.Exec
import Mathlib.Order.Bounds.Basic

/-!
# First-match law of the policy engine

`Accepts` says what a policy is for, without any of the search algorithms: the user's value
of the policy's kind is positive and stored (for a suffix policy: ends in a stored number,
in decimal). `Matches` lifts it to groups, `matching` collects the indices. On a
well-formed table, `firstMatch_law`: the engine returns at the least matching index and
nowhere else, refuses exactly when no group matches, and gives its count on `lock` back.

One lemma per store (`findNum32_iff`, `findRange_isSome_iff`, `suffixLoop_eq`, the bit
test, the tree walk) brings every case of the `switch` to `Accepts` (`policyVerdict_eq`);
the two loops are then plain list inductions.
-/

namespace NgxPlus.Diversion

open ByteMem Rbtree

/-! ## What the engine is for -/

/-- The big-endian numbers of an array of `n`. -/
def arrayNums (n : Nat) (p : Mem) : List Nat :=
  (List.range n).map fun k => utilityMqttReadUint32 (p.drop (k * 4))

/-- The policy's store holds `v`; for a suffix policy, some stored number ends `v`. -/
def Holds (s : Shm) (p : DiversionPolicy) (v : Nat) : Prop :=
  match (confPtype p.type).stype, p.data with
  | .suffix, .nums b => ∃ n ∈ arrayNums p.datalen (memOf b), Nat.toDigits 10 n <:+ Nat.toDigits 10 v
  | _, .ranges rs => ∃ r ∈ rs, r.start ≤ v ∧ v ≤ r.end_
  | _, .nums b => v ∈ arrayNums p.datalen (memOf b)
  | _, .rbtree t => v ∈ t.keys
  | _, .bitVector => ∃ bv, s.globalBitvector1 = some bv ∧ utilityBitVectorGet bv v = true
  | _, .null => False

/-- A policy accepts a user whose value of the policy's kind is positive and stored. -/
def Accepts (s : Shm) (u : DivUserInfo) (p : DiversionPolicy) : Prop :=
  0 < u.reqVal (confPtype p.type).cvalue ∧ Holds s p (u.reqVal (confPtype p.type).cvalue)

/-- A group matches when its uri is a prefix of the request's, it has policies, and they
all accept. -/
def Matches (s : Shm) (u : DivUserInfo) (g : DiversionPolicyGroup) : Prop :=
  (∃ b, g.uri = .of b ∧ b <+: u.uri) ∧ g.policys ≠ [] ∧ ∀ p ∈ s.groupPolicys g, Accepts s u p

/-- Indices of the matching groups. -/
def matching (s : Shm) (u : DivUserInfo) : Set Nat :=
  {i | ∃ g, s.policyGroup[i]? = some g ∧ Matches s u g}

/-! ## Well-formed tables -/

/-- Sorted by start, pairwise disjoint, no empty range. -/
def RangesWF (rs : List DiversionPolicyRange) : Prop :=
  (∀ r ∈ rs, r.start ≤ r.end_) ∧
  rs.Pairwise fun a b => a.start ≤ b.start ∧
    ∀ v, ¬((a.start ≤ v ∧ v ≤ a.end_) ∧ (b.start ≤ v ∧ v ≤ b.end_))

/-- The vector is there and has a bit for every 32-bit number. -/
def VectorWF (s : Shm) (p : DiversionPolicy) : Prop :=
  p.data = .bitVector ∧ ∃ bv, s.globalBitvector1 = some bv ∧ bv.Covers32

/-- What `diversion_exec_policy` relies on for one policy. `datalen` is read from 16 bits
by `diversion_decode_policy`; the bound keeps the `datalen * 4` of the binary search inside 32 bits. -/
def PolicyWF (s : Shm) (p : DiversionPolicy) : Prop :=
  p.type < ngxHttpDiversionConfPtypes.length ∧
  match (confPtype p.type).stype with
  | .range => ∃ rs, p.data = .ranges rs ∧ RangesWF rs
  | .bitSet => VectorWF s p
  | .rbtree => if p.bitsetId = 1 then VectorWF s p else ∃ t, p.data = .rbtree t
  | .numSet =>
    if p.bitsetId = 1 then VectorWF s p
    else p.datalen < 2 ^ 30 ∧ ∃ b, p.data = .nums b ∧ (arrayNums p.datalen (memOf b)).Pairwise (· ≤ ·)
  | .suffix => ∃ b, p.data = .nums b ∧ ∀ n ∈ arrayNums p.datalen (memOf b), n < 10 ^ 9
  | _ => False

def TableWF (s : Shm) : Prop :=
  ∀ g ∈ s.policyGroup, (∃ b, g.uri = .of b) ∧ ∀ p ∈ s.groupPolicys g, PolicyWF s p

/-! ## The searches -/

theorem compare_sorted {n v : Nat} {f : Nat → Nat} (h : ∀ i j, i ≤ j → j < n → f i ≤ f j) :
    BinSearch.Sorted n fun i => compare v (f i) where
  lt_up i j hij hj hlt := by
    rw [Nat.compare_eq_lt] at hlt ⊢
    exact lt_of_lt_of_le hlt (h i j hij hj)
  gt_down i j hij hj hgt := by
    rw [Nat.compare_eq_gt] at hgt ⊢
    exact lt_of_le_of_lt (h i j hij hj) hgt

theorem mem_arrayNums {n v : Nat} {p : Mem} :
    v ∈ arrayNums n p ↔ ∃ k < n, utilityMqttReadUint32 (p.drop (k * 4)) = v := by
  simp [arrayNums]

theorem pairwise_arrayNums {n : Nat} {p : Mem} (h : (arrayNums n p).Pairwise (· ≤ ·)) {i j : Nat}
    (hij : i ≤ j) (hj : j < n) :
    utilityMqttReadUint32 (p.drop (i * 4)) ≤ utilityMqttReadUint32 (p.drop (j * 4)) := by
  rcases Nat.lt_or_eq_of_le hij with hlt | rfl
  · have := List.pairwise_iff_getElem.1 h i j (by simp [arrayNums]; omega) (by simpa [arrayNums]) hlt
    simpa [arrayNums] using this
  · exact Nat.le_refl _

theorem findNum32_iff {n v : Nat} {b : Bytes} (h : (arrayNums n (memOf b)).Pairwise (· ≤ ·)) :
    findNum32 b (n * 4) v = true ↔ v ∈ arrayNums n (memOf b) := by
  have hn : n * 4 / 4 = n := Nat.mul_div_cancel n (by decide)
  rw [findNum32, hn, BinSearch.search_isSome_iff
    (compare_sorted fun i j hij hj => pairwise_arrayNums h hij hj), mem_arrayNums]
  simp only [Nat.compare_eq_eq, eq_comm (a := v)]

theorem rangeProbe_eq_iff {n : Nat} {r : DiversionPolicyRange} :
    rangeProbe n r = .eq ↔ r.start ≤ n ∧ n ≤ r.end_ := by
  unfold rangeProbe; split
  · simpa using ‹_›
  · split <;> simp_all

theorem rangeProbe_lt_iff {n : Nat} {r : DiversionPolicyRange} :
    rangeProbe n r = .lt ↔ n < r.start := by
  unfold rangeProbe; split
  · simp; omega
  · split <;> simp_all

theorem rangeProbe_gt_iff {n : Nat} {r : DiversionPolicyRange} (h : r.start ≤ r.end_) :
    rangeProbe n r = .gt ↔ r.end_ < n := by
  unfold rangeProbe; split
  · simp; omega
  · split
    · simp; omega
    · simp; omega

/-- In a well-formed table an earlier range ends before a later one starts. -/
theorem RangesWF.end_lt_start {rs : List DiversionPolicyRange} (h : RangesWF rs) {i j : Nat}
    (hij : i < j) (hj : j < rs.length) : rs[i].end_ < rs[j].start := by
  obtain ⟨hs, hd⟩ := List.pairwise_iff_getElem.1 h.2 i j (by omega) hj hij
  have hi := h.1 rs[i] (List.getElem_mem _)
  have hj' := h.1 rs[j] (List.getElem_mem _)
  have := hd rs[j].start
  omega

theorem rangeProbe_sorted {rs : List DiversionPolicyRange} (h : RangesWF rs) (v : Nat) :
    BinSearch.Sorted rs.length fun i => rangeProbe v (rs.getD i ⟨0, 0⟩) where
  lt_up i j hij hj hlt := by
    rcases Nat.lt_or_eq_of_le hij with hlt' | rfl
    · have he := h.end_lt_start hlt' hj
      have hi := h.1 rs[i] (List.getElem_mem _)
      rw [List.getD_eq_getElem _ _ (by omega), rangeProbe_lt_iff] at hlt
      rw [List.getD_eq_getElem _ _ hj, rangeProbe_lt_iff]
      omega
    · exact hlt
  gt_down i j hij hj hgt := by
    rcases Nat.lt_or_eq_of_le hij with hlt' | rfl
    · have he := h.end_lt_start hlt' hj
      have hi := h.1 rs[i] (List.getElem_mem _)
      have hj' := h.1 rs[j] (List.getElem_mem _)
      rw [List.getD_eq_getElem _ _ hj, rangeProbe_gt_iff hj'] at hgt
      rw [List.getD_eq_getElem _ _ (by omega), rangeProbe_gt_iff hi]
      omega
    · exact hgt

theorem findRange_isSome_iff {rs : List DiversionPolicyRange} (h : RangesWF rs) (v : Nat) :
    (findRange rs rs.length v).isSome = true ↔ ∃ r ∈ rs, r.start ≤ v ∧ v ≤ r.end_ := by
  rw [findRange, Option.isSome_map, BinSearch.search_isSome_iff (rangeProbe_sorted h v)]
  constructor
  · rintro ⟨k, hk, hp⟩
    rw [List.getD_eq_getElem _ _ hk] at hp
    exact ⟨rs[k], List.getElem_mem _, rangeProbe_eq_iff.1 hp⟩
  · rintro ⟨r, hr, hv⟩
    obtain ⟨k, hk, rfl⟩ := List.mem_iff_getElem.1 hr
    exact ⟨k, hk, by rw [List.getD_eq_getElem _ _ hk]; exact rangeProbe_eq_iff.2 hv⟩

/-! ## Suffixes -/

/-- Below ten digits the multiplier stops at the power of ten just above the number. -/
theorem suffixMul_spec {num : Nat} (hnum : num < 10 ^ 9) {j fuel : Nat} (hj : j < 9)
    (hf : 9 ≤ j + fuel) (hge : j = 0 ∨ 10 ^ j ≤ num) :
    ∃ k, suffixMul num fuel (10 ^ j) = some (10 ^ k) ∧ Decimal.HasDigits k num := by
  induction fuel generalizing j with
  | zero => omega
  | succ fuel ih =>
    have hx : 10 ^ j * 10 % 2 ^ 32 = 10 ^ (j + 1) := by
      rw [← pow_succ]
      refine Nat.mod_eq_of_lt (lt_of_le_of_lt (Nat.pow_le_pow_right (by decide) (show j + 1 ≤ 9 by omega)) ?_)
      decide
    simp only [suffixMul, hx]
    split
    · rename_i hle
      have hj8 : j + 1 < 9 := by
        by_contra hcon
        have : 10 ^ 9 ≤ 10 ^ (j + 1) := Nat.pow_le_pow_right (by decide) (by omega)
        omega
      exact ih hj8 (by omega) (Or.inr hle)
    · rename_i hlt
      refine ⟨j + 1, rfl, by omega, by omega, ?_⟩
      rcases hge with h | h
      · exact Or.inl (by omega)
      · exact Or.inr h

/-- Cutting the last digits off and putting zeros there subtracts them. -/
theorem endsWith_iff {v num : Nat} (hnum : num < 10 ^ 9) :
    ∃ b, endsWith v num = some b ∧ (b = true ↔ Nat.toDigits 10 num <:+ Nat.toDigits 10 v) := by
  obtain ⟨k, hm, hd⟩ := suffixMul_spec hnum (show 0 < 9 by decide) (show 9 ≤ 0 + 32 by decide) (Or.inl rfl)
  rw [pow_zero] at hm
  have hlt := hd.2.1
  have hdm := Nat.div_add_mod v (10 ^ k)
  have hmle := Nat.mod_le v (10 ^ k)
  unfold endsWith
  split
  · rename_i hge
    refine ⟨_, by rw [hm]; rfl, ?_⟩
    rw [Decimal.toDigits_suffix_iff v hd, beq_iff_eq, Nat.mul_comm]
    omega
  · rename_i hge
    refine ⟨false, rfl, ?_⟩
    rw [Decimal.toDigits_suffix_iff v hd, Nat.mod_eq_of_lt (by omega)]
    simp; omega

theorem arrayNums_succ (n : Nat) (p : Mem) :
    arrayNums (n + 1) p = utilityMqttReadUint32 p :: arrayNums n (p.drop 4) := by
  simp only [arrayNums, List.range_succ_eq_map, List.map_cons, List.map_map]
  refine congrArg₂ _ (by simp) (List.map_congr_left fun k _ => ?_)
  simp only [Function.comp, Stream'.drop_drop]
  congr 2; omega

theorem suffixLoop_eq {v n : Nat} {p : Mem} (h : ∀ m ∈ arrayNums n p, m < 10 ^ 9) :
    ∃ b, suffixLoop v n p = .ofBool b ∧
      (b = true ↔ ∃ m ∈ arrayNums n p, Nat.toDigits 10 m <:+ Nat.toDigits 10 v) := by
  induction n generalizing p with
  | zero => exact ⟨false, rfl, by simp [arrayNums]⟩
  | succ n ih =>
    rw [arrayNums_succ] at h ⊢
    obtain ⟨b, he, hb⟩ := endsWith_iff (v := v) (h _ List.mem_cons_self)
    cases b with
    | true => exact ⟨true, by simp [suffixLoop, he, Verdict.ofBool], by simp [hb.1 rfl]⟩
    | false =>
      obtain ⟨b', he', hb'⟩ := ih (p := p.drop 4) fun m hm => h m (List.mem_cons_of_mem _ hm)
      refine ⟨b', by simp [suffixLoop, he, he'], ?_⟩
      have hno : ¬ Nat.toDigits 10 (utilityMqttReadUint32 p) <:+ Nat.toDigits 10 v := fun hc =>
        absurd (hb.2 hc) (by decide)
      simp [hb', hno]

/-! ## One policy -/

/-- A bit-vector-backed policy passes exactly the users whose bit is set. -/
theorem bitVectorVerdict_eq {s : Shm} {p : DiversionPolicy} (h : VectorWF s p) (v : Nat) :
    ∃ b, bitVectorVerdict (s.bitVectorOf p) v = .ofBool b ∧
      (b = true ↔ ∃ bv, s.globalBitvector1 = some bv ∧ utilityBitVectorGet bv v = true) := by
  obtain ⟨hd, bv, hbv, -⟩ := h
  refine ⟨utilityBitVectorGet bv v, by simp [Shm.bitVectorOf, hd, hbv, bitVectorVerdict], ?_⟩
  simp [hbv]

theorem holds_bitVector {s : Shm} {p : DiversionPolicy} (h : p.data = .bitVector) (v : Nat) :
    Holds s p v ↔ ∃ bv, s.globalBitvector1 = some bv ∧ utilityBitVectorGet bv v = true := by
  unfold Holds
  rw [h]
  cases (confPtype p.type).stype <;> exact Iff.rfl

/-- The `switch` settles a policy: it sets or clears `pass`, and sets it exactly for the users
the policy accepts. -/
def Decides (s : Shm) (u : DivUserInfo) (p : DiversionPolicy) : Prop :=
  ∃ b, policyVerdict s u p = .ofBool b ∧ (b = true ↔ Accepts s u p)

section Cases

variable {s : Shm} {u : DivUserInfo} {p : DiversionPolicy}

/-- Every case refuses the value 0, so only a positive value has to be looked up. -/
theorem decides_of_pos (hn : (confPtype p.type).stype ≠ .none) (hr : (confPtype p.type).stype ≠ .reserved)
    (h : u.reqVal (confPtype p.type).cvalue ≠ 0 →
      ∃ b, policyVerdict s u p = .ofBool b ∧
        (b = true ↔ Holds s p (u.reqVal (confPtype p.type).cvalue))) :
    Decides s u p := by
  by_cases hv : u.reqVal (confPtype p.type).cvalue = 0
  · refine ⟨false, ?_, by simp [Accepts, hv]⟩
    cases hst : (confPtype p.type).stype <;> simp_all [policyVerdict, Verdict.ofBool]
  · obtain ⟨b, he, hb⟩ := h hv
    refine ⟨b, he, ?_⟩
    rw [hb, Accepts]
    exact ⟨fun hh => ⟨Nat.pos_of_ne_zero hv, hh⟩, And.right⟩

theorem decides_vector (hst : (confPtype p.type).stype = .bitSet ∨
      ((confPtype p.type).stype = .rbtree ∨ (confPtype p.type).stype = .numSet) ∧ p.bitsetId = 1)
    (hw : VectorWF s p) : Decides s u p := by
  have hn : (confPtype p.type).stype ≠ .none ∧ (confPtype p.type).stype ≠ .reserved := by
    rcases hst with hst | ⟨hst | hst, -⟩ <;> simp [hst]
  refine decides_of_pos hn.1 hn.2 fun hv => ?_
  have hpv : policyVerdict s u p =
      bitVectorVerdict (s.bitVectorOf p) (u.reqVal (confPtype p.type).cvalue) := by
    rcases hst with hst | ⟨hst | hst, h1⟩
    · simp only [policyVerdict, hst, hv, if_false]
    · simp only [policyVerdict, hst, hv, h1, if_false, if_true]
    · simp only [policyVerdict, hst, hv, h1, if_false, if_true]
  rw [hpv, holds_bitVector hw.1]
  exact bitVectorVerdict_eq hw _

theorem decides_range (hst : (confPtype p.type).stype = .range) {rs : List DiversionPolicyRange}
    (hd : p.data = .ranges rs) (hw : RangesWF rs) : Decides s u p := by
  refine decides_of_pos (by simp [hst]) (by simp [hst]) fun hv => ?_
  have hlen : rs.length = p.datalen := by have := p.fits; rwa [hd] at this
  have hholds : Holds s p (u.reqVal (confPtype p.type).cvalue) ↔
      ∃ r ∈ rs, r.start ≤ u.reqVal (confPtype p.type).cvalue ∧
        u.reqVal (confPtype p.type).cvalue ≤ r.end_ := by
    unfold Holds; rw [hst, hd]
  simp only [policyVerdict, hst, hv, if_false]
  rw [hholds]
  split
  · rename_i h0
    have : rs = [] := List.length_eq_zero_iff.1 (by omega)
    exact ⟨false, rfl, by simp [this]⟩
  · refine ⟨_, by rw [hd], ?_⟩
    rw [← hlen]
    exact findRange_isSome_iff hw _

theorem decides_tree (hst : (confPtype p.type).stype = .rbtree) (h1 : p.bitsetId ≠ 1) {t : NgxRbtree Nat}
    (hd : p.data = .rbtree t) : Decides s u p := by
  refine decides_of_pos (by simp [hst]) (by simp [hst]) fun hv => ?_
  have hholds : Holds s p (u.reqVal (confPtype p.type).cvalue) ↔
      u.reqVal (confPtype p.type).cvalue ∈ t.keys := by
    unfold Holds; rw [hst, hd]
  simp only [policyVerdict, hst, hv, h1, if_false]
  rw [hholds]
  exact ⟨_, by rw [hd], lookup4diversion_iff t _⟩

theorem decides_nums (hst : (confPtype p.type).stype = .numSet) (h1 : p.bitsetId ≠ 1)
    (hlen : p.datalen < 2 ^ 30) (hu : u.reqVal (confPtype p.type).cvalue < 2 ^ 32) {b : Bytes}
    (hd : p.data = .nums b) (hs : (arrayNums p.datalen (memOf b)).Pairwise (· ≤ ·)) :
    Decides s u p := by
  refine decides_of_pos (by simp [hst]) (by simp [hst]) fun hv => ?_
  have hholds : Holds s p (u.reqVal (confPtype p.type).cvalue) ↔
      u.reqVal (confPtype p.type).cvalue ∈ arrayNums p.datalen (memOf b) := by
    unfold Holds; rw [hst, hd]
  simp only [policyVerdict, hst, hv, h1, if_false]
  rw [hholds]
  split
  · rename_i h0
    exact ⟨false, rfl, by simp [h0, arrayNums]⟩
  · refine ⟨_, by rw [hd], ?_⟩
    rw [Nat.mod_eq_of_lt hu, Nat.mod_eq_of_lt (by omega)]
    exact findNum32_iff hs

theorem decides_suffix (hst : (confPtype p.type).stype = .suffix) {b : Bytes} (hd : p.data = .nums b)
    (hs : ∀ n ∈ arrayNums p.datalen (memOf b), n < 10 ^ 9) : Decides s u p := by
  refine decides_of_pos (by simp [hst]) (by simp [hst]) fun hv => ?_
  have hholds : Holds s p (u.reqVal (confPtype p.type).cvalue) ↔
      ∃ n ∈ arrayNums p.datalen (memOf b),
        Nat.toDigits 10 n <:+ Nat.toDigits 10 (u.reqVal (confPtype p.type).cvalue) := by
    unfold Holds; rw [hst, hd]
  simp only [policyVerdict, hst, hv, if_false]
  rw [hholds]
  split
  · rename_i h0
    exact ⟨false, rfl, by simp [h0, arrayNums]⟩
  · simp only [hd]
    exact suffixLoop_eq hs

end Cases

/-- **Every case of the `switch`** decides acceptance. -/
theorem policyVerdict_eq {s : Shm} {u : DivUserInfo} {p : DiversionPolicy} (h : PolicyWF s p)
    (hu : ∀ i, u.reqVal i < 2 ^ 32) : Decides s u p := by
  obtain ⟨-, hdata⟩ := h
  cases hst : (confPtype p.type).stype with
  | none => simp [hst] at hdata
  | reserved => simp [hst] at hdata
  | range =>
    simp only [hst] at hdata
    obtain ⟨rs, hd, hw⟩ := hdata
    exact decides_range hst hd hw
  | bitSet =>
    simp only [hst] at hdata
    exact decides_vector (Or.inl hst) hdata
  | rbtree =>
    simp only [hst] at hdata
    split at hdata
    · exact decides_vector (Or.inr ⟨Or.inl hst, ‹_›⟩) hdata
    · obtain ⟨t, hd⟩ := hdata
      exact decides_tree hst ‹_› hd
  | numSet =>
    simp only [hst] at hdata
    split at hdata
    · exact decides_vector (Or.inr ⟨Or.inr hst, ‹_›⟩) hdata
    · obtain ⟨hlen, b, hd, hs⟩ := hdata
      exact decides_nums hst ‹_› hlen (hu _) hd hs
  | suffix =>
    simp only [hst] at hdata
    obtain ⟨b, hd, hs⟩ := hdata
    exact decides_suffix hst hd hs

/-! ## The loops -/

/-- With no `continue`, `return` or endless case left, the inner loop is a conjunction; on an
empty list it hands back the `pass = false` the outer loop set. -/
theorem execPolicys_eq {s : Shm} {u : DivUserInfo} {ps : List DiversionPolicy}
    (h : ∀ p ∈ ps, Decides s u p) (b : Bool) :
    ∃ b', execPolicys s u ps b = .pass b' ∧
      (b' = true ↔ (ps = [] → b = true) ∧ ∀ p ∈ ps, Accepts s u p) := by
  induction ps generalizing b with
  | nil => exact ⟨b, rfl, by simp⟩
  | cons p ps ih =>
    obtain ⟨c, hc, hac⟩ := h p List.mem_cons_self
    cases c with
    | false =>
      refine ⟨false, by simp [execPolicys, hc, Verdict.ofBool], ?_⟩
      have hno : ¬ Accepts s u p := fun hc => absurd (hac.2 hc) (by decide)
      simp [hno]
    | true =>
      obtain ⟨b', he, hb⟩ := ih (fun q hq => h q (List.mem_cons_of_mem _ hq)) true
      refine ⟨b', by simp [execPolicys, hc, Verdict.ofBool, he], ?_⟩
      simp [hb, hac.1 rfl]

theorem uriMatches_of {u : DivUserInfo} {g : DiversionPolicyGroup} {b : Bytes} (h : g.uri = .of b) :
    ∃ c, uriMatches u g = some c ∧ (c = true ↔ b <+: u.uri) := by
  have hl : g.uri.len = b.length := by rw [h]; rfl
  have hd : g.uri.deref = some b := by rw [h, deref_of]
  unfold uriMatches
  rw [hl, hd]
  split
  · refine ⟨u.uri.take b.length == b, rfl, ?_⟩
    rw [beq_iff_eq, List.prefix_iff_eq_take, eq_comm]
  · rename_i hgt
    refine ⟨false, rfl, ?_⟩
    simp only [Bool.false_eq_true, false_iff]
    intro hp
    have := hp.length_le
    omega

theorem uri_prefix_iff {u : DivUserInfo} {g : DiversionPolicyGroup} {b : Bytes} (h : g.uri = .of b) :
    (∃ b', g.uri = .of b' ∧ b' <+: u.uri) ↔ b <+: u.uri := by
  constructor
  · rintro ⟨b', hb', hp⟩
    have : b' = b := by rw [hb'] at h; simpa [NgxStr.of] using congrArg NgxStr.data h
    rwa [this] at hp
  · exact fun hp => ⟨b, h, hp⟩

/-- The exit of the outer loop over `gs` from index `i` on: refused when nothing matches, else
the answer of the first match. -/
def FirstAnswer (divEnv : Bytes) (s : Shm) (u : DivUserInfo) (i : Nat) (gs : List DiversionPolicyGroup)
    (e : ExecExit) : Prop :=
  ((∀ g ∈ gs, ¬ Matches s u g) ∧ e = .error) ∨
  (∃ j g, gs[j]? = some g ∧ Matches s u g ∧ (∀ k < j, ∀ g', gs[k]? = some g' → ¬ Matches s u g') ∧
    e = .ofResult (i + j) (diversionProcResult divEnv s g))

/-- A group that does not match is passed over, and the rest decides. -/
theorem FirstAnswer.skip {divEnv : Bytes} {s : Shm} {u : DivUserInfo} {i : Nat} {g : DiversionPolicyGroup}
    {gs : List DiversionPolicyGroup} {e : ExecExit} (h : FirstAnswer divEnv s u (i + 1) gs e)
    (hno : ¬ Matches s u g) : FirstAnswer divEnv s u i (g :: gs) e := by
  rcases h with ⟨hall, he⟩ | ⟨j, g', hj, hm, hmin, he⟩
  · refine Or.inl ⟨?_, he⟩
    intro g' hg'
    rcases List.mem_cons.1 hg' with rfl | hg'
    · exact hno
    · exact hall g' hg'
  · refine Or.inr ⟨j + 1, g', by simpa using hj, hm, ?_, ?_⟩
    · intro k hk g'' hg''
      cases k with
      | zero => simp at hg''; subst hg''; exact hno
      | succ k => exact hmin k (by omega) g'' (by simpa using hg'')
    · rw [he]; congr 1; omega

/-- The outer loop from index `i` on: it stops at the first matching group. -/
theorem execGroups_eq (divEnv : Bytes) {s : Shm} {u : DivUserInfo} (hs : s.status = 2)
    (hu : ∀ i, u.reqVal i < 2 ^ 32) {gs : List DiversionPolicyGroup}
    (h : ∀ g ∈ gs, (∃ b, g.uri = .of b) ∧ ∀ p ∈ s.groupPolicys g, PolicyWF s p) (i : Nat) :
    FirstAnswer divEnv s u i gs (execGroups divEnv s u i gs) := by
  have hs3 : s.status ≠ 3 := by rw [hs]; decide
  induction gs generalizing i with
  | nil => exact Or.inl ⟨by simp, rfl⟩
  | cons g gs ih =>
    obtain ⟨⟨b, hb⟩, hps⟩ := h g List.mem_cons_self
    have ih := ih (fun g' hg' => h g' (List.mem_cons_of_mem _ hg')) (i + 1)
    obtain ⟨c, hc, hpre⟩ := uriMatches_of (u := u) hb
    rw [← uri_prefix_iff hb] at hpre
    cases c with
    | false =>
      have hno : ¬ Matches s u g := fun hm => absurd (hpre.2 hm.1) (by decide)
      have heq : execGroups divEnv s u i (g :: gs) = execGroups divEnv s u (i + 1) gs := by
        simp [execGroups, hc]
      rw [heq]
      exact ih.skip hno
    | true =>
      obtain ⟨b', he, hb'⟩ := execPolicys_eq (fun p hp => policyVerdict_eq (hps p hp) hu) false
      have hm : Matches s u g ↔ b' = true := by
        rw [hb', Matches, ← hpre]
        simp [Shm.groupPolicys]
      cases b' with
      | false =>
        have hno : ¬ Matches s u g := fun h' => absurd (hm.1 h') (by decide)
        have heq : execGroups divEnv s u i (g :: gs) = execGroups divEnv s u (i + 1) gs := by
          simp [execGroups, hc, hs3, he]
        rw [heq]
        exact ih.skip hno
      | true =>
        refine Or.inr ⟨0, g, rfl, hm.2 rfl, by simp, ?_⟩
        simp [execGroups, hc, hs3, he]

/-! ## The law -/

/-- The engine on a well-formed active table, in one place: nothing matches and it refuses,
or it answers from the least matching group. -/
theorem diversionExecPolicy_cases (divEnv : Bytes) {s : Shm} {u : DivUserInfo} (hs : s.status = 2)
    (hw : TableWF s) (hu : ∀ i, u.reqVal i < 2 ^ 32) :
    (matching s u = ∅ ∧ diversionExecPolicy divEnv s u = (.error, s.lock)) ∨
    ∃ i g, IsLeast (matching s u) i ∧ s.policyGroup[i]? = some g ∧
      ((∃ out, diversionProcResult divEnv s g = some out ∧
          diversionExecPolicy divEnv s u = (.ok i out, s.lock)) ∨
        (diversionProcResult divEnv s g = none ∧
          diversionExecPolicy divEnv s u = (.segv, s.lock + 1))) := by
  have hs2 : ¬ s.status < 2 := by rw [hs]; decide
  have hlock : s.lock + 1 - 1 = s.lock := by simp
  simp only [diversionExecPolicy, if_neg hs2]
  rcases execGroups_eq divEnv hs hu hw 0 with ⟨hall, he⟩ | ⟨i, g, hi, hm, hmin, he⟩
  · refine Or.inl ⟨?_, by rw [he]; simp only [hlock]⟩
    rw [Set.eq_empty_iff_forall_notMem]
    rintro i ⟨g, hg, hm⟩
    exact hall g (List.mem_of_getElem? hg) hm
  · refine Or.inr ⟨i, g, ⟨⟨g, hi, hm⟩, ?_⟩, hi, ?_⟩
    · rintro k ⟨g', hg', hm'⟩
      by_contra hlt
      exact hmin k (by omega) g' hg' hm'
    · rw [he, Nat.zero_add]
      cases hr : diversionProcResult divEnv s g with
      | none => exact Or.inr ⟨rfl, rfl⟩
      | some out => exact Or.inl ⟨out, rfl, by simp only [ExecExit.ofResult, hlock]⟩

/-- **First match**: `NGX_OK` with the result of group `i` exactly at the least matching
index, `NGX_ERROR` exactly when no group matches, and every return undoes the increment of
`lock`. -/
theorem firstMatch_law (divEnv : Bytes) {s : Shm} {u : DivUserInfo} (hs : s.status = 2)
    (hw : TableWF s) (hu : ∀ i, u.reqVal i < 2 ^ 32) :
    (∀ i out, (diversionExecPolicy divEnv s u).1 = .ok i out ↔
      IsLeast (matching s u) i ∧
        ∃ g, s.policyGroup[i]? = some g ∧ diversionProcResult divEnv s g = some out) ∧
    ((diversionExecPolicy divEnv s u).1 = .error ↔ matching s u = ∅) ∧
    (diversionExecPolicy divEnv s u).1 ≠ .hang ∧
    ((diversionExecPolicy divEnv s u).1 ≠ .segv → (diversionExecPolicy divEnv s u).2 = s.lock) := by
  rcases diversionExecPolicy_cases divEnv hs hw hu with
    ⟨hnone, he⟩ | ⟨i, g, hleast, hg, ⟨out, hr, he⟩ | ⟨hr, he⟩⟩
  · simp [he, hnone, IsLeast]
  · have hne : matching s u ≠ ∅ := fun h => by simpa [h] using hleast.1
    refine ⟨fun j out' => ?_, by simp [he, hne], by simp [he], by simp [he]⟩
    rw [he]
    constructor
    · intro h
      obtain ⟨rfl, rfl⟩ := ExecExit.ok.inj h
      exact ⟨hleast, g, hg, hr⟩
    · rintro ⟨hj, g', hg', hr'⟩
      obtain rfl := hj.unique hleast
      obtain rfl := Option.some.inj (hg'.symm.trans hg)
      rw [hr] at hr'
      rw [Option.some.inj hr']
  · have hne : matching s u ≠ ∅ := fun h => by simpa [h] using hleast.1
    refine ⟨fun j out' => ?_, by simp [he, hne], by simp [he], by simp [he]⟩
    rw [he]
    refine ⟨fun h => by simp at h, ?_⟩
    rintro ⟨hj, g', hg', hr'⟩
    obtain rfl := hj.unique hleast
    obtain rfl := Option.some.inj (hg'.symm.trans hg)
    rw [hr] at hr'
    simp at hr'

/-- An active table with one group: uri `/`, answered by a range policy on `aid`. -/
def oneRangeTable : Shm :=
  { ngxHttpLuaDiversionInitSysconfZone none with
    status := 2
    policyGroup := [⟨.of (ascii ['/']), .of [], .of [], 1, [0]⟩]
    policys := [⟨4, 2, 7, 0, .ranges [⟨1, 4⟩, ⟨6, 9⟩], rfl⟩] }

def aidUser (aid : Nat) : DivUserInfo := ⟨ascii ['/', 'a'], 0, aid, 0, 0⟩

theorem tableWF_oneRangeTable : TableWF oneRangeTable := by
  intro g hg
  obtain rfl := List.mem_singleton.1 hg
  refine ⟨⟨_, rfl⟩, fun p hp => ?_⟩
  obtain rfl := List.mem_singleton.1 hp
  refine ⟨by decide, _, rfl, by decide, ?_⟩
  rw [List.pairwise_pair]
  refine ⟨by decide, fun v hv => ?_⟩
  simp only at hv
  omega

theorem firstMatch_law_oneRange :
    (IsLeast (matching oneRangeTable (aidUser 7)) 0 ∧ ∃ g, oneRangeTable.policyGroup[0]? = some g ∧
      diversionProcResult [] oneRangeTable g = some ⟨1, .of [], .of []⟩) ∧
    matching oneRangeTable (aidUser 5) = ∅ := by
  have hu : ∀ a, a < 2 ^ 32 → ∀ i, (aidUser a).reqVal i < 2 ^ 32 := by
    intro a ha i
    match i with
    | 0 | 2 | _ + 3 => exact Nat.two_pow_pos 32
    | 1 => exact ha
  exact ⟨((firstMatch_law [] rfl tableWF_oneRangeTable (hu 7 (by decide))).1 0 _).1 rfl,
    (firstMatch_law [] rfl tableWF_oneRangeTable (hu 5 (by decide))).2.1.1 rfl⟩

end NgxPlus.Diversion
