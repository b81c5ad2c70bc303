import NgxPlus.Diversion.FirstMatch
import NgxPlus.Lib.Trace

/-!
# The searches of the engine on whatever the server sends

| here | there |
| --- | --- |
| `scanRange`     | the loop that `find_range` took the place of (commented out, `.cpp:1889-1899`) |
| `ServerOrder`   | `order by start,end` (`get_policy.lua:66`) |
| `suffixModulus` | the `x` with which the `do`-loop of `ST_SUFFIX` ends (`.cpp:1985-1988`) |

`find_range` compares the ends of the ranges on its way only. On ranges sorted by their start
it is a bisection towards the last one that starts at or before `n`, and a range that contains
`n` and lies apart from the way is missed (`findRange_agrees_iff`). Where the ends are sorted
too, that last range is as good as any (`findRange_of_ends`).

`x` is 32 bits wide, so for a number of ten digits it is no power of ten: `v % x` is compared
where `v % 10 ^ 10` is meant, and from 4135583744 on the loop does not end
(`suffixLoop_right_iff`).
-/

namespace NgxPlus.Diversion

open ByteMem Trace

/-! ## Ranges -/

def DiversionPolicyRange.Contains (r : DiversionPolicyRange) (n : Nat) : Prop := r.start ≤ n ∧ n ≤ r.end_

instance (r : DiversionPolicyRange) (n : Nat) : Decidable (r.Contains n) := inferInstanceAs (Decidable (_ ∧ _))

def scanRange (p : List DiversionPolicyRange) (n : Nat) : Option DiversionPolicyRange := p.find? fun r => r.Contains n

def ServerOrder (p : List DiversionPolicyRange) : Prop :=
  p.Pairwise fun a b => a.start < b.start ∨ a.start = b.start ∧ a.end_ ≤ b.end_

/-- The indices that `find_range` reads. -/
def rangeVisits (p : List DiversionPolicyRange) (len n : Nat) : List Nat :=
  BinSearch.visits (fun i => rangeProbe n (p.getD i ⟨0, 0⟩)) len 0 ((len : Nat) - 1 : Int)

/-- It answers exactly where the scan does, with a range that contains `n`, and reads inside the list. -/
structure AgreesWithScan (p : List DiversionPolicyRange) (n : Nat) : Prop where
  isSome : (findRange p p.length n).isSome = (scanRange p n).isSome
  sound : ∀ r, findRange p p.length n = some r → r ∈ p ∧ r.Contains n
  inside : ∀ i ∈ rangeVisits p p.length n, i < p.length

/-- How many ranges start at or before `n`. -/
def starting (p : List DiversionPolicyRange) (n : Nat) : Nat := (p.takeWhile fun r => r.start ≤ n).length

/-- The indices at or before `n` that a bisection towards the last of them comes by. -/
def wayTo (p : List DiversionPolicyRange) (n : Nat) : List Nat :=
  BinSearch.path (starting p n) p.length 0 ((p.length : Nat) - 1 : Int)

section Ranges

variable {p : List DiversionPolicyRange} {n : Nat}

theorem scanRange_isSome_iff : (scanRange p n).isSome ↔ ∃ r ∈ p, r.Contains n := by
  simp [scanRange]

theorem starting_le : starting p n ≤ p.length := (List.takeWhile_prefix _).length_le

/-- In order, the ranges from `starting` on start behind `n`, and no other. -/
theorem start_le_iff (hs : ServerOrder p) {i : Nat} (hi : i < p.length) : p[i].start ≤ n ↔ i < starting p n := by
  induction p generalizing i with
  | nil => simp at hi
  | cons r p ih =>
    obtain ⟨hr, hs⟩ := List.pairwise_cons.1 hs
    by_cases hle : r.start ≤ n
    · have hst : starting (r :: p) n = starting p n + 1 := by simp [starting, hle]
      rw [hst]
      cases i with
      | zero => simpa using hle
      | succ i =>
        rw [List.getElem_cons_succ, ih hs (by simpa using hi)]
        omega
    · have hst : starting (r :: p) n = 0 := by simp [starting, hle]
      rw [hst]
      simp only [Nat.not_lt_zero, iff_false]
      cases i with
      | zero => simpa using hle
      | succ i =>
        rw [List.getElem_cons_succ]
        have := hr _ (List.getElem_mem (by simpa using hi : i < p.length))
        omega

theorem findRange_sound {r : DiversionPolicyRange} (h : findRange p p.length n = some r) : r ∈ p ∧ r.Contains n := by
  obtain ⟨i, hi, rfl⟩ := Option.map_eq_some_iff.1 h
  obtain ⟨hp, h0, h1⟩ := BinSearch.search_sound (Int.le_refl 0) hi
  have hlt : i < p.length := by omega
  rw [List.getD_eq_getElem _ _ hlt] at hp ⊢
  exact ⟨List.getElem_mem hlt, rangeProbe_eq_iff.1 hp⟩

theorem rangeVisits_lt {i : Nat} (h : i ∈ rangeVisits p p.length n) : i < p.length := by
  have := BinSearch.mem_visits (Int.le_refl 0) h
  omega

/-- The search is a bisection. -/
theorem findRange_isSome_iff_way (hs : ServerOrder p) :
    (findRange p p.length n).isSome ↔ ∃ i ∈ wayTo p n, ∃ r, p[i]? = some r ∧ r.Contains n := by
  have hk : ∀ i : Nat, (i : Int) ≤ (p.length : Int) - 1 →
      (rangeProbe n (p.getD i ⟨0, 0⟩) = .lt ↔ starting p n ≤ i) := by
    intro i hi
    have hlt : i < p.length := by omega
    rw [List.getD_eq_getElem _ _ hlt, rangeProbe_lt_iff, ← not_le, start_le_iff hs hlt, not_lt]
  rw [findRange, Option.isSome_map, BinSearch.search_isSome_iff_path (Int.le_refl 0) hk]
  refine exists_congr fun i => and_congr_right fun hi => ?_
  have hlt := BinSearch.mem_path (Int.le_refl 0) hi
  have hlt : i < p.length := by omega
  rw [List.getD_eq_getElem _ _ hlt, rangeProbe_eq_iff, List.getElem?_eq_getElem hlt]
  simp [DiversionPolicyRange.Contains]

/-- **The search and the scan agree** exactly when a range that contains `n`, if there is one, lies on the way. -/
theorem findRange_agrees_iff (hs : ServerOrder p) (n : Nat) :
    AgreesWithScan p n ↔
      ((∃ r ∈ p, r.Contains n) → ∃ i ∈ wayTo p n, ∃ r, p[i]? = some r ∧ r.Contains n) := by
  have hback : (∃ i ∈ wayTo p n, ∃ r, p[i]? = some r ∧ r.Contains n) → ∃ r ∈ p, r.Contains n :=
    fun ⟨i, _, r, hr, hc⟩ => ⟨r, List.mem_of_getElem? hr, hc⟩
  constructor
  · intro h hex
    rw [← findRange_isSome_iff_way hs, h.isSome]
    exact scanRange_isSome_iff.2 hex
  · intro h
    refine ⟨?_, fun r => findRange_sound, fun i => rangeVisits_lt⟩
    rw [Bool.eq_iff_iff, findRange_isSome_iff_way hs, scanRange_isSome_iff]
    exact ⟨hback, h⟩

/-- Without nested ranges they agree on every `n`. -/
theorem findRange_of_ends (hs : ServerOrder p) (he : p.Pairwise fun a b => a.end_ ≤ b.end_) (n : Nat) :
    AgreesWithScan p n := by
  rw [findRange_agrees_iff hs]
  rintro ⟨r, hr, hstart, hend⟩
  obtain ⟨j, hj, rfl⟩ := List.mem_iff_getElem.1 hr
  have hjk := (start_le_iff hs hj).1 hstart
  have hle := starting_le (p := p) (n := n)
  have hlast : starting p n - 1 < p.length := by omega
  refine ⟨starting p n - 1, BinSearch.pred_mem_path (Int.le_refl 0) (by omega) (by omega) (by omega), _,
    List.getElem?_eq_getElem hlast, (start_le_iff hs hlast).2 (by omega), hend.trans ?_⟩
  rcases Nat.lt_or_eq_of_le (Nat.le_sub_one_of_lt hjk) with hlt | heq
  · exact List.pairwise_iff_getElem.1 he j _ hj hlast hlt
  · simp only [heq, le_refl]

end Ranges

/-- A wide range and two narrow ones in it. -/
def nestedRanges : List DiversionPolicyRange := [⟨1, 100⟩, ⟨2, 3⟩, ⟨4, 5⟩]

theorem serverOrder_nestedRanges : ServerOrder nestedRanges := by
  simp [ServerOrder, nestedRanges]

theorem findRange_agrees_nested : AgreesWithScan nestedRanges 3 :=
  (findRange_agrees_iff serverOrder_nestedRanges 3).2 fun _ => ⟨1, by decide, ⟨2, 3⟩, rfl, by decide⟩

/-- 50 lies in the first one, which is not on the way. -/
theorem findRange_misses_nested : ServerOrder nestedRanges ∧ ¬ AgreesWithScan nestedRanges 50 :=
  ⟨serverOrder_nestedRanges, fun h => absurd h.isSome (by decide)⟩

/-! ## Suffixes -/

/-- The values that `x` takes. -/
def multipliers : Nat → Nat → List Nat
  | 0, _ => []
  | fuel + 1, x => x * 10 % 2 ^ 32 :: multipliers fuel (x * 10 % 2 ^ 32)

/-- Those that are larger than all before them, and than `m`. -/
def records : Nat → List Nat → List Nat
  | _, [] => []
  | m, x :: xs => if m < x then x :: records x xs else records m xs

def suffixModulus (num : Nat) : Option Nat :=
  [10, 10 ^ 2, 10 ^ 3, 10 ^ 4, 10 ^ 5, 10 ^ 6, 10 ^ 7, 10 ^ 8, 10 ^ 9, 1410065408, 3567587328, 3735027712,
    4135583744].find? (num < ·)

/-- The comparison of the loop comes out even. -/
def Taken (v num : Nat) : Prop := num ≤ v ∧ ∃ x, suffixModulus num = some x ∧ v % x = num

/-- The multiplier never exceeds the number. -/
def Endless (v num : Nat) : Prop := num ≤ v ∧ suffixModulus num = none

theorem suffixMul_eq_find (num fuel x : Nat) : suffixMul num fuel x = (multipliers fuel x).find? (num < ·) := by
  induction fuel generalizing x with
  | zero => rfl
  | succ fuel ih =>
    rw [suffixMul, multipliers]
    by_cases h : num < x * 10 % 2 ^ 32
    · rw [List.find?_cons_of_pos (by simpa using h)]
      simp only [if_neg (not_le.2 h)]
    · rw [List.find?_cons_of_neg (by simpa using h)]
      simp only [if_pos (not_lt.1 h), ih]

theorem find_records {num m : Nat} (h : m ≤ num) (xs : List Nat) :
    xs.find? (num < ·) = (records m xs).find? (num < ·) := by
  induction xs generalizing m with
  | nil => rfl
  | cons x xs ih =>
    rw [records]
    by_cases hx : num < x
    · rw [if_pos (h.trans_lt hx), List.find?_cons_of_pos (by simpa using hx), List.find?_cons_of_pos (by simpa using hx)]
    · rw [List.find?_cons_of_neg (by simpa using hx)]
      split
      · rw [List.find?_cons_of_neg (by simpa using hx)]
        exact ih (not_lt.1 hx)
      · exact ih h

theorem suffixMul_eq (num : Nat) : suffixMul num 32 1 = suffixModulus num := by
  rw [suffixMul_eq_find, find_records (Nat.zero_le num), suffixModulus]
  congr 1

theorem endsWith_cases (v num : Nat) :
    (endsWith v num = some true ∧ Taken v num) ∨ (endsWith v num = none ∧ Endless v num) ∨
      (endsWith v num = some false ∧ ¬ Taken v num ∧ ¬ Endless v num) := by
  rw [endsWith]
  by_cases hle : num ≤ v
  · rw [if_pos hle, suffixMul_eq]
    cases hx : suffixModulus num with
    | none => exact Or.inr (Or.inl ⟨rfl, hle, hx⟩)
    | some x =>
      have hdm := Nat.div_add_mod' v x
      have hmle := Nat.mod_le v x
      have heven : v / x * x = v - num ↔ v % x = num := by omega
      by_cases hv : v % x = num
      · exact Or.inl ⟨by simpa using heven.2 hv, hle, x, hx, hv⟩
      · refine Or.inr (Or.inr ⟨by simpa [heven] using hv, ?_, ?_⟩)
        · rintro ⟨-, y, hy, he⟩
          rw [hx] at hy
          exact hv (Option.some.inj hy ▸ he)
        · rintro ⟨-, hy⟩
          rw [hx] at hy
          cases hy
  · rw [if_neg hle]
    exact Or.inr (Or.inr ⟨rfl, fun h => hle h.1, fun h => hle h.1⟩)

/-- A number that is taken stands before every endless one. -/
def TakenFirst (v : Nat) (nums : List Nat) : Prop := StopsAt (fun m => ¬ Endless v m) (Taken v) nums

/-- The loop passes, fails or hangs by what stands in the list. -/
theorem suffixLoop_cases (v n : Nat) (p : Mem) :
    (suffixLoop v n p = .pass ↔ TakenFirst v (arrayNums n p)) ∧
      (suffixLoop v n p = .fail ↔ ∀ m ∈ arrayNums n p, ¬ Taken v m ∧ ¬ Endless v m) := by
  induction n generalizing p with
  | zero => simp [suffixLoop, arrayNums, TakenFirst]
  | succ n ih =>
    obtain ⟨hpass, hfail⟩ := ih (p.drop 4)
    rw [arrayNums_succ, TakenFirst, stopsAt_cons, ← TakenFirst, List.forall_mem_cons, suffixLoop]
    rcases endsWith_cases v (utilityMqttReadUint32 p) with ⟨he, ht⟩ | ⟨he, hend⟩ | ⟨he, ht, hend⟩
    · simp [he, ht]
    · have hnt : ¬ Taken v (utilityMqttReadUint32 p) := by
        rintro ⟨-, x, hx, -⟩
        simp [hend.2] at hx
      simp [he, hend, hnt]
    · simp only [he, hpass, hfail]
      simp [ht, hend]

/-- The loop ends, and passes exactly the users whose value ends in a listed number. -/
def SuffixRight (v n : Nat) (p : Mem) : Prop :=
  suffixLoop v n p ≠ .hang ∧
    (suffixLoop v n p = .pass ↔ ∃ m ∈ arrayNums n p, Nat.toDigits 10 m <:+ Nat.toDigits 10 v)

theorem suffixLoop_verdict (v n : Nat) (p : Mem) :
    (suffixLoop v n p = .pass ∨ suffixLoop v n p = .fail) ∨ suffixLoop v n p = .hang := by
  induction n generalizing p with
  | zero => simp [suffixLoop]
  | succ n ih =>
    rw [suffixLoop]
    split
    · simp
    · simp
    · exact ih _

/-- **Suffixes**: where a listed number ends `v`, a number that is taken has to stand before every
endless one; where none does, there must be neither. -/
theorem suffixLoop_right_iff (v n : Nat) (p : Mem) :
    SuffixRight v n p ↔
      if ∃ m ∈ arrayNums n p, Nat.toDigits 10 m <:+ Nat.toDigits 10 v then TakenFirst v (arrayNums n p)
      else ∀ m ∈ arrayNums n p, ¬ Taken v m ∧ ¬ Endless v m := by
  obtain ⟨hpass, hfail⟩ := suffixLoop_cases v n p
  rw [← hpass, ← hfail, SuffixRight]
  by_cases hex : ∃ m ∈ arrayNums n p, Nat.toDigits 10 m <:+ Nat.toDigits 10 v
  · rw [if_pos hex, iff_true_right hex]
    exact ⟨fun h => h.2, fun h => ⟨by rw [h]; decide, h⟩⟩
  · rw [if_neg hex, iff_false_right hex]
    have hskip := suffixLoop_verdict v n p
    constructor
    · rintro ⟨h1, h2⟩
      exact (hskip.resolve_right h1).resolve_left h2
    · intro h
      rw [h]
      exact ⟨by decide, by decide⟩

/-- 11000000000 ends in 1000000000, which is compared with its remainder by 1410065408. -/
theorem suffixLoop_tenDigits :
    ¬ SuffixRight 11000000000 1 (memOf (utilityMqttWriteUint32 1000000000)) := by
  rintro ⟨-, h⟩
  have hnums : arrayNums 1 (memOf (utilityMqttWriteUint32 1000000000)) = [1000000000] := by decide +kernel
  have hloop : suffixLoop 11000000000 1 (memOf (utilityMqttWriteUint32 1000000000)) = .fail := by decide +kernel
  rw [hnums, hloop] at h
  exact absurd (h.2 ⟨_, List.mem_singleton_self _, by decide +kernel⟩) (by decide)

end NgxPlus.Diversion
