import NgxPlus.Diversion.Searches

/-!
# Policies that cannot be checked

A policy stored in the bit vector has a NULL pointer where `diversion_bitset_shm` is not
configured. The `switch` leaves it by `continue`, with `pass` clear, past the `if (!pass) break`
that every refusal meets. `execPolicys_true_iff`: what the loop over the policies hands back is the
last policy's answer, so a group that ends with a policy of another kind is selected as if the
unchecked one were not there (`not_selects_iff`).

| here | there |
| --- | --- |
| `NullVector`  | `if (!bit_vector) continue;` (`.cpp:1911-1914`, `1926-1929`, `1953-1956`) |
| `searchStore` | the searches of the five cases, without the tests around them |
-/

namespace NgxPlus.Diversion

open ByteMem Rbtree Trace

/-! ## One policy -/

/-- The `switch` takes `policy->data` for a bit vector. -/
def InVector (p : DiversionPolicy) : Prop :=
  (confPtype p.type).stype = .bitSet ∨
    ((confPtype p.type).stype = .rbtree ∨ (confPtype p.type).stype = .numSet) ∧ p.bitsetId = 1

instance (p : DiversionPolicy) : Decidable (InVector p) := inferInstanceAs (Decidable (_ ∨ _))

def NullVector (s : Shm) (p : DiversionPolicy) : Prop := InVector p ∧ (s.bitVectorOf p).isNone

instance (s : Shm) (p : DiversionPolicy) : Decidable (NullVector s p) := inferInstanceAs (Decidable (_ ∧ _))

/-- The `default:` case. -/
def NoStore (p : DiversionPolicy) : Prop :=
  (confPtype p.type).stype = .none ∨ (confPtype p.type).stype = .reserved

instance (p : DiversionPolicy) : Decidable (NoStore p) := inferInstanceAs (Decidable (_ ∨ _))

/-- The user's value of the policy's kind. -/
def userValue (u : DivUserInfo) (p : DiversionPolicy) : Nat := u.reqVal (confPtype p.type).cvalue

/-- Does the policy's store hold the value; `none`: the search does not end. -/
def searchStore (s : Shm) (p : DiversionPolicy) (v : Nat) : Option Bool :=
  if InVector p then some ((s.bitVectorOf p).any (utilityBitVectorGet · v))
  else match (confPtype p.type).stype, p.data with
    | .range, .ranges rs => some (findRange rs p.datalen v).isSome
    | .rbtree, .rbtree t => some (ngxRbtreeLookup4diversion t v)
    | .numSet, .nums b => some (findNum32 b (p.datalen * 4 % 2 ^ 32) (v % 2 ^ 32))
    | .suffix, .nums b =>
      if suffixLoop v p.datalen (memOf b) = .hang then none
      else some (decide (suffixLoop v p.datalen (memOf b) = .pass))
    | _, _ => some false

def Lets (s : Shm) (u : DivUserInfo) (p : DiversionPolicy) : Prop :=
  ¬ NoStore p ∧ userValue u p ≠ 0 ∧ searchStore s p (userValue u p) = some true

def Refuses (s : Shm) (u : DivUserInfo) (p : DiversionPolicy) : Prop :=
  ¬ NoStore p ∧ (userValue u p = 0 ∨ ¬ NullVector s p ∧ searchStore s p (userValue u p) = some false)

/-- The policy is passed over without an answer. -/
def Unchecked (s : Shm) (u : DivUserInfo) (p : DiversionPolicy) : Prop := userValue u p ≠ 0 ∧ NullVector s p

/-- The loop goes on to the next policy. -/
def GoesOn (s : Shm) (u : DivUserInfo) (p : DiversionPolicy) : Prop := Lets s u p ∨ Unchecked s u p

section Verdicts

variable {s : Shm} {u : DivUserInfo} {p : DiversionPolicy}

theorem NullVector.not_noStore (h : NullVector s p) : ¬ NoStore p := by
  rintro (hn | hn)
  · rcases h.1 with hb | ⟨hb | hb, -⟩ <;> simp [hn] at hb
  · rcases h.1 with hb | ⟨hb | hb, -⟩ <;> simp [hn] at hb

theorem searchStore_nullVector (h : NullVector s p) (v : Nat) : searchStore s p v = some false := by
  rw [searchStore, if_pos h.1, Option.isNone_iff_eq_none.1 h.2]
  rfl

theorem policyVerdict_inVector (h : InVector p) (hv : userValue u p ≠ 0) :
    policyVerdict s u p = bitVectorVerdict (s.bitVectorOf p) (userValue u p) := by
  rcases h with hst | ⟨hst | hst, h1⟩
  · simp only [policyVerdict, hst]
    exact if_neg hv
  · simp only [policyVerdict, hst, h1, if_true]
    exact if_neg hv
  · simp only [policyVerdict, hst, h1, if_true]
    exact if_neg hv

theorem ofBool_eq_suffixLoop (v n : Nat) (m : Mem) (h : suffixLoop v n m ≠ .hang) :
    suffixLoop v n m = .ofBool (decide (suffixLoop v n m = .pass)) := by
  rcases suffixLoop_verdict v n m with (hp | hf) | hh
  · rw [hp]
    rfl
  · rw [hf]
    rfl
  · exact absurd hh h

/-- Outside the vector, the tests around a search say what the search says. -/
theorem policyVerdict_search (hn : ¬ NoStore p) (h : ¬ InVector p) (hv : userValue u p ≠ 0) :
    policyVerdict s u p = (searchStore s p (userValue u p)).elim .hang .ofBool := by
  have hfit := p.fits
  rw [NoStore, not_or] at hn
  rw [searchStore, if_neg h]
  unfold policyVerdict
  simp only [show u.reqVal (confPtype p.type).cvalue = userValue u p from rfl]
  cases hst : (confPtype p.type).stype with
  | none => exact absurd hst hn.1
  | reserved => exact absurd hst hn.2
  | bitSet => exact absurd (Or.inl hst) h
  | range =>
    simp only [if_neg hv]
    cases hd : p.data with
    | ranges rs =>
      rw [hd] at hfit
      split
      · rename_i h0
        obtain rfl : rs = [] := List.length_eq_zero_iff.1 (hfit.trans h0)
        rw [h0]
        rfl
      · rfl
    | _ => split <;> rfl
  | rbtree =>
    have h1 : p.bitsetId ≠ 1 := fun h1 => h (Or.inr ⟨Or.inl hst, h1⟩)
    simp only [if_neg hv, if_neg h1]
    cases p.data <;> rfl
  | numSet =>
    have h1 : p.bitsetId ≠ 1 := fun h1 => h (Or.inr ⟨Or.inr hst, h1⟩)
    simp only [if_neg hv, if_neg h1]
    cases hd : p.data with
    | nums b =>
      split
      · rename_i h0
        rw [h0]
        rfl
      · rfl
    | _ => split <;> rfl
  | suffix =>
    simp only [if_neg hv]
    cases hd : p.data with
    | nums b =>
      simp only
      split
      · rename_i h0
        rw [h0]
        rfl
      · split
        · rename_i hh
          exact hh
        · rename_i hh
          exact ofBool_eq_suffixLoop _ _ _ hh
    | _ => split <;> rfl

/-- The `switch` in the terms above. -/
theorem policyVerdict_eq_search (s : Shm) (u : DivUserInfo) (p : DiversionPolicy) :
    policyVerdict s u p =
      if NoStore p then .unsupported
      else if userValue u p = 0 then .fail
      else if NullVector s p then .skip
      else (searchStore s p (userValue u p)).elim .hang .ofBool := by
  by_cases hn : NoStore p
  · rw [if_pos hn]
    rcases hn with hn | hn <;> simp [policyVerdict, hn]
  · rw [if_neg hn]
    by_cases hv : userValue u p = 0
    · rw [if_pos hv]
      rw [NoStore, not_or] at hn
      rw [userValue] at hv
      cases hst : (confPtype p.type).stype <;> simp_all [policyVerdict]
    · rw [if_neg hv]
      by_cases hin : InVector p
      · rw [policyVerdict_inVector hin hv]
        cases hb : s.bitVectorOf p with
        | none => rw [if_pos ⟨hin, by rw [hb]; rfl⟩, bitVectorVerdict]
        | some bv =>
          rw [if_neg fun h => by simpa [hb] using h.2, searchStore, if_pos hin, hb]
          rfl
      · rw [if_neg fun h => hin h.1]
        exact policyVerdict_search hn hin hv

theorem policyVerdict_pass_iff : policyVerdict s u p = .pass ↔ Lets s u p := by
  rw [policyVerdict_eq_search, Lets]
  by_cases hn : NoStore p
  · simp [hn]
  · by_cases hv : userValue u p = 0
    · simp [hn, hv]
    · by_cases hnull : NullVector s p
      · simp [hn, hv, hnull, searchStore_nullVector hnull]
      · rcases hs : searchStore s p (userValue u p) with _ | _ | _ <;> simp [hn, hv, hnull, Verdict.ofBool]

theorem policyVerdict_fail_iff : policyVerdict s u p = .fail ↔ Refuses s u p := by
  rw [policyVerdict_eq_search, Refuses]
  by_cases hn : NoStore p
  · simp [hn]
  · by_cases hv : userValue u p = 0
    · simp [hn, hv]
    · by_cases hnull : NullVector s p
      · simp [hn, hv, hnull]
      · rcases hs : searchStore s p (userValue u p) with _ | _ | _ <;> simp [hn, hv, hnull, Verdict.ofBool]

theorem policyVerdict_skip_iff : policyVerdict s u p = .skip ↔ Unchecked s u p := by
  rw [policyVerdict_eq_search, Unchecked]
  by_cases hnull : NullVector s p
  · by_cases hv : userValue u p = 0 <;> simp [hnull.not_noStore, hv, hnull]
  · rcases hs : searchStore s p (userValue u p) with _ | _ | _ <;> by_cases hn : NoStore p <;>
      by_cases hv : userValue u p = 0 <;> simp [hn, hv, hnull, Verdict.ofBool]

theorem Unchecked.not_lets (h : Unchecked s u p) : ¬ Lets s u p := by
  rw [← policyVerdict_pass_iff, policyVerdict_skip_iff.2 h]
  simp

end Verdicts

/-! ## A group's policies -/

/-- The loop runs to the end, and its last policy lets the user through. -/
def Admits (s : Shm) (u : DivUserInfo) (ps : List DiversionPolicy) : Prop :=
  (∀ p ∈ ps, GoesOn s u p) ∧ ∃ p, ps.getLast? = some p ∧ Lets s u p

/-- It is left at a policy that refuses, or runs to the end without an answer from the last one. -/
def TurnsAway (s : Shm) (u : DivUserInfo) (ps : List DiversionPolicy) : Prop :=
  StopsAt (GoesOn s u) (Refuses s u) ps ∨ (∀ p ∈ ps, GoesOn s u p) ∧ ∀ p, ps.getLast? = some p → Unchecked s u p

section Loop

variable {s : Shm} {u : DivUserInfo}

/-- `pass` of an empty rest is the one that came in. -/
theorem execPolicys_true_iff (ps : List DiversionPolicy) (b : Bool) :
    execPolicys s u ps b = .pass true ↔ (∀ p ∈ ps, GoesOn s u p) ∧ ps.getLast?.elim (b = true) (Lets s u) := by
  induction ps generalizing b with
  | nil => simp [execPolicys]
  | cons p ps ih =>
    rw [List.forall_mem_cons, List.getLast?_cons, execPolicys]
    cases hv : policyVerdict s u p with
    | pass =>
      have hl := policyVerdict_pass_iff.1 hv
      simp only [ih, Option.elim_some, show GoesOn s u p from Or.inl hl, true_and]
      refine and_congr_right fun _ => ?_
      cases ps.getLast? with
      | none => simpa using hl
      | some q => rfl
    | skip =>
      have hu := policyVerdict_skip_iff.1 hv
      simp only [ih, Option.elim_some, show GoesOn s u p from Or.inr hu, true_and]
      refine and_congr_right fun _ => ?_
      cases ps.getLast? with
      | none => simpa using hu.not_lets
      | some q => rfl
    | _ =>
      have hno : ¬ GoesOn s u p := by
        rw [GoesOn, ← policyVerdict_pass_iff, ← policyVerdict_skip_iff, hv]
        simp
      simp [hno]

theorem execPolicys_admits_iff (ps : List DiversionPolicy) : execPolicys s u ps false = .pass true ↔ Admits s u ps := by
  rw [execPolicys_true_iff, Admits]
  refine and_congr_right fun _ => ?_
  cases ps.getLast? <;> simp

theorem execPolicys_false_iff (ps : List DiversionPolicy) (b : Bool) :
    execPolicys s u ps b = .pass false ↔ StopsAt (GoesOn s u) (Refuses s u) ps ∨
      (∀ p ∈ ps, GoesOn s u p) ∧ ps.getLast?.elim (b = false) (Unchecked s u) := by
  induction ps generalizing b with
  | nil => simp [execPolicys]
  | cons p ps ih =>
    rw [List.forall_mem_cons, List.getLast?_cons, stopsAt_cons, execPolicys]
    have hgo : GoesOn s u p ↔ policyVerdict s u p = .pass ∨ policyVerdict s u p = .skip := by
      rw [policyVerdict_pass_iff, policyVerdict_skip_iff, GoesOn]
    rw [hgo, ← policyVerdict_fail_iff]
    cases hv : policyVerdict s u p with
    | pass =>
      have hno : ¬ Unchecked s u p := fun h => h.not_lets (policyVerdict_pass_iff.1 hv)
      simp only [ih, Option.elim_some]
      cases ps.getLast? <;> simp [hno]
    | skip =>
      have hu := policyVerdict_skip_iff.1 hv
      simp only [ih, Option.elim_some]
      cases ps.getLast? <;> simp [hu]
    | _ => simp

theorem execPolicys_turnsAway_iff (ps : List DiversionPolicy) :
    execPolicys s u ps false = .pass false ↔ TurnsAway s u ps := by
  rw [execPolicys_false_iff, TurnsAway]
  cases ps.getLast? <;> simp

theorem TurnsAway.not_admits {ps : List DiversionPolicy} (h : TurnsAway s u ps) : ¬ Admits s u ps := by
  rw [← execPolicys_admits_iff, execPolicys_turnsAway_iff ps |>.2 h]
  simp

end Loop

/-! ## The groups -/

/-- The loop over the groups goes on behind it. -/
def PassedOver (s : Shm) (u : DivUserInfo) (g : DiversionPolicyGroup) : Prop :=
  uriMatches u g = some false ∨ uriMatches u g = some true ∧ TurnsAway s u (s.groupPolicys g)

/-- The call answers `NGX_OK` from group `i`. -/
def Selects (divEnv : Bytes) (s : Shm) (u : DivUserInfo) (i : Nat) : Prop :=
  ∃ out, (diversionExecPolicy divEnv s u).1 = .ok i out

section Groups

variable {divEnv : Bytes} {s : Shm} {u : DivUserInfo}

/-- It is passed over, or gives the answer, or ends the call without one. -/
theorem execGroups_cons_cases (divEnv : Bytes) (u : DivUserInfo) (hs : s.status = 2) (j : Nat)
    (g : DiversionPolicyGroup) (gs : List DiversionPolicyGroup) :
    (PassedOver s u g ∧ execGroups divEnv s u j (g :: gs) = execGroups divEnv s u (j + 1) gs) ∨
    (¬ PassedOver s u g ∧ (uriMatches u g = some true ∧ Admits s u (s.groupPolicys g)) ∧
      execGroups divEnv s u j (g :: gs) = .ofResult j (diversionProcResult divEnv s g)) ∨
    (¬ PassedOver s u g ∧ ¬ (uriMatches u g = some true ∧ Admits s u (s.groupPolicys g)) ∧
      ∀ i out, execGroups divEnv s u j (g :: gs) ≠ .ok i out) := by
  have hs3 : s.status ≠ 3 := by rw [hs]; decide
  rw [execGroups]
  cases hm : uriMatches u g with
  | none => exact Or.inr (Or.inr ⟨by simp [PassedOver, hm], by simp, by simp⟩)
  | some b =>
    cases b with
    | false => exact Or.inl ⟨Or.inl hm, rfl⟩
    | true =>
      have hover : PassedOver s u g ↔ execPolicys s u (s.groupPolicys g) false = .pass false := by
        rw [execPolicys_turnsAway_iff, PassedOver, hm]
        simp
      simp only [if_neg hs3, true_and]
      rw [hover, ← execPolicys_admits_iff]
      cases he : execPolicys s u (s.groupPolicys g) false with
      | pass b => cases b <;> simp
      | unsupported => simp
      | hang => simp

theorem le_of_execGroups_ok {gs : List DiversionPolicyGroup} {j i : Nat} {out : DiversionCaclRes} (hs : s.status = 2)
    (h : execGroups divEnv s u j gs = .ok i out) : j ≤ i := by
  induction gs generalizing j with
  | nil => simp [execGroups] at h
  | cons g gs ih =>
    rcases execGroups_cons_cases divEnv u hs j g gs with ⟨-, he⟩ | ⟨-, -, he⟩ | ⟨-, -, hne⟩
    · rw [he] at h
      have := ih h
      omega
    · rw [he] at h
      cases hr : diversionProcResult divEnv s g with
      | none => simp [hr, ExecExit.ofResult] at h
      | some r =>
        rw [hr] at h
        exact (ExecExit.ok.inj h).1.le
    · exact absurd h (hne i out)

/-- The answer of group `i` is reached past the ones before it. -/
theorem execGroups_ok_iff (divEnv : Bytes) (u : DivUserInfo) (hs : s.status = 2) (gs : List DiversionPolicyGroup)
    (j i : Nat) :
    (∃ out, execGroups divEnv s u j gs = .ok (j + i) out) ↔
      (∀ g ∈ gs.take i, PassedOver s u g) ∧ ∃ g, gs[i]? = some g ∧
        (uriMatches u g = some true ∧ Admits s u (s.groupPolicys g)) ∧ (diversionProcResult divEnv s g).isSome := by
  induction gs generalizing j i with
  | nil => simp [execGroups]
  | cons g gs ih =>
    rcases execGroups_cons_cases divEnv u hs j g gs with
      ⟨ho, he⟩ | ⟨ho, ha, he⟩ | ⟨ho, ha, hne⟩
    · rw [he]
      cases i with
      | zero =>
        have hno : ¬ (uriMatches u g = some true ∧ Admits s u (s.groupPolicys g)) := by
          rcases ho with hf | ⟨-, ht⟩
          · simp [hf]
          · exact fun h => ht.not_admits h.2
        constructor
        · rintro ⟨out, h⟩
          have := le_of_execGroups_ok hs h
          omega
        · rintro ⟨-, g', hg, ha, -⟩
          obtain rfl := Option.some.inj hg
          exact absurd ha hno
      | succ i =>
        have := ih (j + 1) i
        rw [show j + 1 + i = j + (i + 1) by omega] at this
        rw [this, List.take_succ_cons, List.forall_mem_cons, List.getElem?_cons_succ]
        simp [ho]
    · rw [he]
      cases i with
      | zero =>
        cases hr : diversionProcResult divEnv s g with
        | none => simp [ExecExit.ofResult, hr]
        | some out => simp [ExecExit.ofResult, hr, ha]
      | succ i =>
        constructor
        · rintro ⟨out, h⟩
          cases hr : diversionProcResult divEnv s g with
          | none => simp [hr, ExecExit.ofResult] at h
          | some r =>
            rw [hr] at h
            have := (ExecExit.ok.inj h).1
            omega
        · rintro ⟨h, -⟩
          exact absurd (h g (by simp)) ho
    · constructor
      · rintro ⟨out, h⟩
        exact absurd h (hne _ out)
      · rintro ⟨h, g', hg, ha', -⟩
        cases i with
        | zero =>
          obtain rfl := Option.some.inj hg
          exact absurd ha' ha
        | succ i => exact absurd (h g (by simp)) ho

theorem diversionExecPolicy_ok_iff (hs : s.status = 2) (i : Nat) (out : DiversionCaclRes) :
    (diversionExecPolicy divEnv s u).1 = .ok i out ↔ execGroups divEnv s u 0 s.policyGroup = .ok i out := by
  have h2 : ¬ s.status < 2 := by rw [hs]; decide
  rw [diversionExecPolicy, if_neg h2]
  cases execGroups divEnv s u 0 s.policyGroup <;> simp

theorem selects_iff (hs : s.status = 2) {i : Nat} {g : DiversionPolicyGroup} (hg : s.policyGroup[i]? = some g) :
    Selects divEnv s u i ↔ (∀ g' ∈ s.policyGroup.take i, PassedOver s u g') ∧
      (uriMatches u g = some true ∧ Admits s u (s.groupPolicys g)) ∧ (diversionProcResult divEnv s g).isSome := by
  have h := execGroups_ok_iff divEnv u hs s.policyGroup 0 i
  rw [Nat.zero_add] at h
  rw [Selects]
  simp only [diversionExecPolicy_ok_iff hs, h, hg, Option.some.injEq, exists_eq_left']

/-- **A policy that cannot be checked** keeps its group from being selected exactly when the call ends
before the group, the uri does not match, some policy refuses, or the group's last policy cannot
be checked either (or the answer is read through NULL). -/
theorem not_selects_iff (hs : s.status = 2) {i : Nat} {g : DiversionPolicyGroup} (hg : s.policyGroup[i]? = some g)
    (hnull : ∃ p ∈ s.groupPolicys g, NullVector s p) :
    ¬ Selects divEnv s u i ↔
      (∃ g' ∈ s.policyGroup.take i, ¬ PassedOver s u g') ∨ uriMatches u g ≠ some true ∨
        (∃ p ∈ s.groupPolicys g, ¬ GoesOn s u p) ∨
        (∃ p, (s.groupPolicys g).getLast? = some p ∧ Unchecked s u p) ∨ diversionProcResult divEnv s g = none := by
  obtain ⟨p₀, hp₀, -⟩ := hnull
  obtain ⟨q, hq⟩ : ∃ q, (s.groupPolicys g).getLast? = some q := by
    rw [← Option.isSome_iff_exists, List.getLast?_isSome]
    exact List.ne_nil_of_mem hp₀
  have hlast : Admits s u (s.groupPolicys g) ↔ (∀ p ∈ s.groupPolicys g, GoesOn s u p) ∧ ¬ Unchecked s u q := by
    rw [Admits, hq]
    refine and_congr_right fun h => ?_
    have hgo := h q (List.mem_of_getLast? hq)
    simp only [Option.some.injEq, exists_eq_left']
    exact ⟨fun hl hu => hu.not_lets hl, fun hu => hgo.resolve_right hu⟩
  rw [selects_iff hs hg, hlast, hq, ← Option.not_isSome_iff_eq_none]
  simp only [Option.some.injEq, exists_eq_left', not_and_or, not_forall, not_not, exists_prop]
  simp only [or_assoc, ne_eq]

end Groups

/-- One group: the bit vector, which is not configured, and a range policy on `aid`. -/
def uncheckedFirst : Shm :=
  { oneRangeTable with
    policyGroup := [⟨.of (ascii ['/']), .of [], .of [], 1, [1, 0]⟩]
    policys := oneRangeTable.policys ++ [⟨2, 0, 8, 0, .bitVector, trivial⟩] }

/-- The same, the other way round. -/
def uncheckedLast : Shm :=
  { uncheckedFirst with policyGroup := [⟨.of (ascii ['/']), .of [], .of [], 1, [0, 1]⟩] }

def ipUser : DivUserInfo := { aidUser 7 with ip := 9 }

theorem not_selects_uncheckedLast : ¬ Selects [] uncheckedLast ipUser 0 := by
  refine (not_selects_iff (g := ⟨.of (ascii ['/']), .of [], .of [], 1, [0, 1]⟩) rfl rfl ?_).2 ?_
  · exact ⟨⟨2, 0, 8, 0, .bitVector, trivial⟩, by simp [Shm.groupPolicys]; right; rfl, by decide, rfl⟩
  · exact Or.inr (Or.inr (Or.inr (Or.inl ⟨_, rfl, by decide, by decide, rfl⟩)))

/-- Before a policy that accepts, the one that cannot be checked is as good as passed. -/
theorem selects_uncheckedFirst :
    uncheckedFirst.status = 2 ∧ (∃ p ∈ uncheckedFirst.groupPolicys ⟨.of (ascii ['/']), .of [], .of [], 1, [1, 0]⟩,
      NullVector uncheckedFirst p) ∧
      Selects [] uncheckedFirst ipUser 0 :=
  ⟨rfl, ⟨⟨2, 0, 8, 0, .bitVector, trivial⟩, List.mem_cons_self, by decide, rfl⟩, ⟨1, .of [], .of []⟩, by decide⟩

end NgxPlus.Diversion
