import Mathlib.Logic.Relation
import Mathlib.Order.Bounds.Defs
import Mathlib.Tactic.Ring
import NgxPlus.Mqtt.OffsetProcess
import NgxPlus.Mqtt.Subscribe

/-!
# Reading a range of a topic (`__f_mqtt_zrangebyscore`)

A call reads a page, drops the expired messages and asks for as many scores again behind the last
one it saw. What it reads is complete (`zrangeLoop_eq`), but only in the last third of the ring is
the end of a page cut at the stored counter (`strict.lua:115-118`): elsewhere the scores asked
for again may end behind the counter, and so does the end that is returned.

`rangeRead_iff`: a call returns no end behind the counter exactly when every page ends at or
below it.
-/

namespace NgxPlus.Mqtt

open ByteMem

/-! ## Messages -/

def int64Be (b : Bytes) : Int := toInt64 (be 8 (b ++ₛ Stream'.const 0))

/-- Seven bits a byte, the lowest first. -/
def remainingValue : Bytes → Nat
  | [] => 0
  | d :: ds => d.toNat % 128 + 128 * remainingValue ds

/-- A `PUBLISH` message: the flags, the remaining length, which ends with `last`, the payload with
the version and the timestamp in front. -/
inductive PublishMessage : Bytes → Prop
  | mk (flags : UInt8) (more : Bytes) (last : UInt8) (payload : Bytes) (htype : flags >>> 4 = typePublish)
      (hmore : ∀ d ∈ more, 128 ≤ d) (hlast : last < 128) (hlen : remainingValue (more ++ [last]) = payload.length)
      (htime : 10 ≤ payload.length) : PublishMessage (flags :: (more ++ last :: payload))

/-- Behind the flags, the remaining length and the version. -/
def timestampOf (m : Bytes) : Int := int64Be (((m.drop 1).dropWhile fun d => decide (128 ≤ d)).drop 3)

def Expired (now : Int) (m : Bytes) : Prop := 0 < timestampOf m ∧ timestampOf m < now

instance (now : Int) (m : Bytes) : Decidable (Expired now m) := inferInstanceAs (Decidable (_ ∧ _))

/-! ## Requests and answers -/

/-- What the caller passes. -/
structure RangeRequest (st : TopicKey) (n : Nat) (maxlimit min pagesize : Int) : Prop where
  counter : st.counter = some n
  ring : n ≤ intMaxRing
  onePerScore : st.zset.OnePerScore
  scores : ∀ e ∈ st.zset.entries, 1 ≤ e.1 ∧ e.1 ≤ n
  messages : ∀ e ∈ st.zset.entries, PublishMessage e.2
  min_pos : 1 ≤ min
  size_pos : 1 ≤ pagesize
  size_le : pagesize ≤ maxlimit
  inside : min + pagesize - 1 ≤ n
  near : n - min ≤ maxlimit

/-- The entries in the page and the end of it. -/
def ReadsUpTo (zset : SortedSet Nat Bytes) (now : Int) (n : Nat) (min : Int) : RangeReply → Prop
  | .vals t max => min ≤ max ∧ max ≤ n ∧ (t.Pairwise fun a b => a.1 < b.1) ∧
      ∀ e, e ∈ t ↔ e ∈ zset.entries ∧ min ≤ e.1 ∧ (e.1 : Int) ≤ max ∧ ¬ Expired now e.2
  | _ => False

/-- The unexpired entries with a score in `a..b`. -/
def unexpired (zset : SortedSet Nat Bytes) (now a b : Int) : List (Nat × Bytes) :=
  (zset.rangeByScore fun score => decide (a ≤ score) && decide ((score : Int) ≤ b)).filter fun e => !decide (Expired now e.2)

section

variable (zset : SortedSet Nat Bytes) (now : Int) (n : Nat) (min pagesize : Int)

/-- How many entries are still wanted behind score `s`. -/
def wanted (s : Int) : Int := pagesize - (unexpired zset now min s).length

/-- The page behind score `s` takes as many scores as entries are wanted. It is followed by one
behind its last score `l` when it holds an expired message and ends below the counter. -/
structure NextPage (s l : Int) : Prop where
  below : s + wanted zset now min pagesize s < n
  expired : ∃ e ∈ zset.entries, s < e.1 ∧ (e.1 : Int) ≤ s + wanted zset now min pagesize s ∧ Expired now e.2
  last : IsGreatest {score | ∃ e ∈ zset.entries, (e.1 : Int) = score ∧ s < score ∧
    score ≤ s + wanted zset now min pagesize s} l

/-- Every page ends at or below the counter, or the counter is in the last third of the ring. -/
def PagesInside : Prop :=
  (n : ℚ) > intMaxRing2 ∨ ∀ s, Relation.ReflTransGen (NextPage zset now n min pagesize) (min - 1) s →
    s + wanted zset now min pagesize s ≤ n

end

/-! ## One message -/

theorem luaRemaining_digits {more : Bytes} {last : UInt8} (hmore : ∀ d ∈ more, 128 ≤ d) (hlast : last < 128)
    (rest : Bytes) (multiplier acc index : Nat) :
    luaRemaining (more ++ last :: rest) multiplier acc index =
      some (acc + remainingValue (more ++ [last]) * multiplier, index + more.length) := by
  induction more generalizing multiplier acc index with
  | nil =>
    have hlt : last.toNat < 128 := UInt8.lt_iff_toNat_lt.1 hlast
    simp [luaRemaining, remainingValue, hlt]
  | cons d ds ih =>
    have hge : ¬ d.toNat < 128 := not_lt.2 (UInt8.le_iff_toNat_le.1 (hmore d (by simp)))
    have hsum : acc + d.toNat % 128 * multiplier + remainingValue (ds ++ [last]) * (multiplier * 128) =
        acc + remainingValue (d :: ds ++ [last]) * multiplier := by
      simp only [List.cons_append, remainingValue]
      ring
    rw [List.cons_append, luaRemaining]
    simp only [if_neg hge]
    rw [ih (fun x hx => hmore x (by simp [hx])), hsum, List.length_cons, Nat.add_assoc, Nat.add_comm 1]

theorem timestampOf_message {more : Bytes} {last : UInt8} (hmore : ∀ d ∈ more, 128 ≤ d) (hlast : last < 128)
    (flags : UInt8) (payload : Bytes) :
    timestampOf (flags :: (more ++ last :: payload)) = int64Be (payload.drop 2) := by
  have hstop : ¬ 128 ≤ last := not_le.2 hlast
  have hskip : (more ++ last :: payload).dropWhile (fun d => decide (128 ≤ d)) = last :: payload := by
    rw [List.dropWhile_append_of_pos (by simpa using hmore), List.dropWhile_cons_of_neg (by simpa using hstop)]
  rw [timestampOf, List.drop_succ_cons, List.drop_zero, hskip, List.drop_succ_cons]

/-- The number depends on the first eight bytes. -/
theorem int64Be_take {b : Bytes} (h : 8 ≤ b.length) : int64Be (b.take 9) = int64Be b := by
  have h8 : 8 ≤ (b.take 9).length := by rw [List.length_take]; omega
  have hbe : be 8 (b.take 9 ++ₛ Stream'.const 0) = be 8 (b ++ₛ Stream'.const 0) :=
    calc be 8 (b.take 9 ++ₛ Stream'.const 0)
        = be 8 (b.take 9 ++ₛ (b.drop 9 ++ₛ Stream'.const 0)) := be_append_congr h8 _ _
      _ = be 8 (b ++ₛ Stream'.const 0) := by rw [← Stream'.append_append_stream, List.take_append_drop]
  rw [int64Be, int64Be, hbe]

/-- The script keeps a message exactly when it is not expired. -/
theorem redisKeeps_message {L : Libs} (hL : ∀ b, 8 ≤ b.length → L.redisReadInt64 b = int64Be b) (now : Int) {m : Bytes}
    (hm : PublishMessage m) : redisKeeps L now m = some (!decide (Expired now m)) := by
  obtain ⟨flags, more, last, payload, htype, hmore, hlast, hlen, htime⟩ := hm
  have hdrop : (flags :: (more ++ last :: payload)).drop (2 + more.length + 2) = payload.drop 2 := by
    rw [show 2 + more.length + 2 = (more.length + (1 + 2)) + 1 by omega, List.drop_succ_cons, List.drop_append]
    simp
  have hread : L.redisReadInt64 ((payload.drop 2).take 9) = int64Be (payload.drop 2) := by
    have h8 : 8 ≤ (payload.drop 2).length := by rw [List.length_drop]; omega
    rw [hL _ (by rw [List.length_take]; omega), int64Be_take h8]
  have hlong : (flags :: (more ++ last :: payload)).length > payload.length := by simp; omega
  simp only [redisKeeps, luaRemaining_digits hmore hlast, hlen, Nat.zero_add, Nat.mul_one, hdrop, hread]
  rw [if_pos ⟨hlong, htype⟩]
  simp [Expired, timestampOf_message hmore hlast]

/-! ## The entries of a page -/

section

variable {zset : SortedSet Nat Bytes} {now a b c : Int}

theorem mem_unexpired {e : Nat × Bytes} :
    e ∈ unexpired zset now a b ↔ e ∈ zset.entries ∧ a ≤ e.1 ∧ (e.1 : Int) ≤ b ∧ ¬ Expired now e.2 := by
  simp [unexpired, and_assoc]

theorem unexpired_eq_nil (h : ∀ e ∈ zset.entries, ¬ (a ≤ e.1 ∧ (e.1 : Int) ≤ b)) : unexpired zset now a b = [] := by
  rw [List.eq_nil_iff_forall_not_mem]
  intro e he
  obtain ⟨he, ha, hb, -⟩ := mem_unexpired.1 he
  exact h e he ⟨ha, hb⟩

theorem unexpired_append (hone : zset.OnePerScore) (hab : a ≤ b + 1) (hbc : b ≤ c) :
    unexpired zset now a c = unexpired zset now a b ++ unexpired zset now (b + 1) c := by
  have hsplit : zset.rangeByScore (fun score => decide (a ≤ score) && decide ((score : Int) ≤ c)) =
      zset.rangeByScore (fun score => decide (a ≤ score) && decide ((score : Int) ≤ b)) ++
        zset.rangeByScore (fun score => decide (b + 1 ≤ score) && decide ((score : Int) ≤ c)) := by
    apply hone.rangeByScore_append
    · intro x y hx hy
      simp only [Bool.and_eq_true, decide_eq_true_eq] at hx hy
      omega
    · intro x
      rw [Bool.eq_iff_iff]
      simp only [Bool.or_eq_true, Bool.and_eq_true, decide_eq_true_eq]
      omega
  rw [unexpired, hsplit, List.filter_append]
  rfl

/-- Behind the last score of a page there is nothing left of it. -/
theorem unexpired_upto (hone : zset.OnePerScore) (hab : a ≤ b + 1) (hbc : b ≤ c)
    (hlast : ∀ e ∈ zset.entries, a ≤ e.1 → (e.1 : Int) ≤ c → (e.1 : Int) ≤ b) :
    unexpired zset now a c = unexpired zset now a b := by
  have hnil : unexpired zset now (b + 1) c = [] := by
    apply unexpired_eq_nil
    rintro e he ⟨hb, hc⟩
    have := hlast e he (by omega) hc
    omega
  rw [unexpired_append hone hab hbc, hnil, List.append_nil]

end

/-! ## One page -/

/-- Only in the last third of the ring is the end of a page cut. -/
theorem clampMax_of_le {n : Nat} {max : Int} (h : max ≤ 2 * n) :
    clampMax n max = if (n : ℚ) > intMaxRing2 ∧ max > n then (n : Int) else max := by
  have hlow : ¬ (((n : Int) : ℚ) < intMaxRing1 ∧ (max : ℚ) > intMaxRing2) := by
    rintro ⟨h1, h2⟩
    rw [Int.cast_natCast, cast_lt_ring1] at h1
    rw [gt_iff_lt, intMaxRing2_eq, div_lt_iff₀ (by norm_num)] at h2
    have : (4294960000 : Int) < max * 3 := by exact_mod_cast h2
    omega
  rw [clampMax, if_neg hlow, Int.cast_natCast]
  split
  · rename_i hr
    simp only [hr, true_and]
  · rename_i hr
    simp only [hr, false_and, if_false]

section

variable {st : TopicKey} {n : Nat} {maxlimit min pagesize now s l : Int}

/-- Before the first page nothing is read. -/
theorem wanted_first (zset : SortedSet Nat Bytes) : wanted zset now min pagesize (min - 1) = pagesize := by
  have hnil : unexpired zset now min (min - 1) = [] := by
    apply unexpired_eq_nil
    intro e _
    omega
  rw [wanted, hnil]
  simp

theorem wanted_next {zset : SortedSet Nat Bytes} (hone : zset.OnePerScore) (hs : min - 1 ≤ s) (hl : s ≤ l) :
    wanted zset now min pagesize l =
      wanted zset now min pagesize s - (unexpired zset now (s + 1) l).length := by
  rw [wanted, wanted, unexpired_append hone (by omega) hl, List.length_append]
  omega

theorem wanted_le (zset : SortedSet Nat Bytes) : wanted zset now min pagesize s ≤ pagesize := by
  rw [wanted]
  omega

/-- Where a page ends. -/
structure PageEnd (zset : SortedSet Nat Bytes) (now : Int) (n : Nat) (min pagesize s max : Int) : Prop where
  behind : s < max
  size : max ≤ s + wanted zset now min pagesize s
  below : max < n → max = s + wanted zset now min pagesize s
  uncut : ¬ (n : ℚ) > intMaxRing2 → max = s + wanted zset now min pagesize s
  cut : (n : ℚ) > intMaxRing2 → max ≤ n

theorem RangeRequest.pageEnd (h : RangeRequest st n maxlimit min pagesize) (hsn : s < n)
    (hw : 1 ≤ wanted st.zset now min pagesize s) :
    PageEnd st.zset now n min pagesize s (clampMax n (s + wanted st.zset now min pagesize s)) := by
  have hsize : wanted st.zset now min pagesize s ≤ pagesize := wanted_le st.zset
  have := h.min_pos
  have := h.inside
  rw [clampMax_of_le (by omega)]
  by_cases hr : (n : ℚ) > intMaxRing2
  · by_cases hm : s + wanted st.zset now min pagesize s > n
    · rw [if_pos ⟨hr, hm⟩]
      exact ⟨hsn, hm.le, fun hlt => absurd hlt (lt_irrefl _), fun hn => absurd hr hn, fun _ => le_rfl⟩
    · rw [if_neg fun hx => hm hx.2]
      exact ⟨by omega, le_rfl, fun _ => rfl, fun _ => rfl, fun _ => not_lt.1 hm⟩
  · rw [if_neg fun hx => hr hx.1]
    exact ⟨by omega, le_rfl, fun _ => rfl, fun _ => rfl, fun hx => absurd hx hr⟩

/-- The entries that the script gets for a page. -/
def pageEntries (zset : SortedSet Nat Bytes) (s max : Int) : List (Nat × Bytes) :=
  zset.rangeByScore fun score => decide (s + 1 ≤ score) && decide ((score : Int) ≤ max)

theorem mem_pageEntries {zset : SortedSet Nat Bytes} {max : Int} {e : Nat × Bytes} :
    e ∈ pageEntries zset s max ↔ e ∈ zset.entries ∧ s < e.1 ∧ (e.1 : Int) ≤ max := by
  rw [pageEntries, SortedSet.mem_rangeByScore, Bool.and_eq_true, decide_eq_true_eq, decide_eq_true_eq, Int.add_one_le_iff]

/-- One call with its tests for the request decided. -/
theorem RangeRequest.zrangeLoop_call (h : RangeRequest st n maxlimit min pagesize) {L : Libs}
    (hL : ∀ b, 8 ≤ b.length → L.redisReadInt64 b = int64Be b) (hs : min - 1 ≤ s) (fuel : Nat) {max : Int}
    (hend : PageEnd st.zset now n min pagesize s max)
    (hmax : clampMax n (s + wanted st.zset now min pagesize s) = max) :
    zrangeLoop L now maxlimit st.zset n (fuel + 1) (s + 1) (wanted st.zset now min pagesize s) =
      let kept := unexpired st.zset now (s + 1) max
      if kept.length < (pageEntries st.zset s max).length then
        if max ≥ n ∨ max ≥ intMaxRing then .vals kept max
        else
          let next := match (pageEntries st.zset s max).getLast? with
            | some e => (e.1 : Int) + 1
            | none => s + 1
          match zrangeLoop L now maxlimit st.zset n fuel next (wanted st.zset now min pagesize s - kept.length) with
          | .vals t1 max => .vals (kept ++ t1) max
          | .err max => .vals kept max
          | .raised => .raised
      else .vals kept max := by
  have hsize : wanted st.zset now min pagesize s ≤ pagesize := wanted_le st.zset
  have hlimit : ¬ wanted st.zset now min pagesize s > maxlimit := by
    have := h.size_le
    omega
  have hpage : wanted st.zset now min pagesize s + (s + 1) - 1 = s + wanted st.zset now min pagesize s := by omega
  have hle : ¬ s + 1 > max := by
    have := hend.behind
    omega
  have hnear : ¬ (maxlimit > 1 ∧ (n : Int) - (s + 1) > maxlimit) := by
    have := h.near
    omega
  have hkept : (pageEntries st.zset s max).filterM (fun e => redisKeeps L now e.2) =
      some (unexpired st.zset now (s + 1) max) :=
    filterM_eq_filter fun e he => redisKeeps_message hL now (h.messages e (mem_pageEntries.1 he).1)
  simp only [pageEntries] at hkept ⊢
  rw [zrangeLoop]
  simp only [if_neg hlimit, hpage, hmax, if_neg hle, if_neg hnear, hkept]
  rfl

/-- The page behind `s` that ends at `max` is the last one. -/
def LastPage (zset : SortedSet Nat Bytes) (now : Int) (n : Nat) (s max : Int) : Prop :=
  (∀ e ∈ pageEntries zset s max, ¬ Expired now e.2) ∨ max ≥ n

theorem unexpired_length_lt_iff {zset : SortedSet Nat Bytes} {max : Int} :
    (unexpired zset now (s + 1) max).length < (pageEntries zset s max).length ↔
      ¬ ∀ e ∈ pageEntries zset s max, ¬ Expired now e.2 := by
  have hkept : unexpired zset now (s + 1) max = (pageEntries zset s max).filter fun e => !decide (Expired now e.2) := rfl
  rw [hkept, List.length_filter_lt_length_iff_exists]
  simp

theorem RangeRequest.zrangeLoop_last (h : RangeRequest st n maxlimit min pagesize) {L : Libs}
    (hL : ∀ b, 8 ≤ b.length → L.redisReadInt64 b = int64Be b) (hs : min - 1 ≤ s) (fuel : Nat) {max : Int}
    (hend : PageEnd st.zset now n min pagesize s max)
    (hmax : clampMax n (s + wanted st.zset now min pagesize s) = max) (hlast : LastPage st.zset now n s max) :
    zrangeLoop L now maxlimit st.zset n (fuel + 1) (s + 1) (wanted st.zset now min pagesize s) =
      .vals (unexpired st.zset now (s + 1) max) max := by
  rw [h.zrangeLoop_call hL hs fuel hend hmax]
  rcases hlast with hfresh | hn
  · have hsame : ¬ (unexpired st.zset now (s + 1) max).length < (pageEntries st.zset s max).length := by
      rw [unexpired_length_lt_iff, not_not]
      exact hfresh
    simp only [if_neg hsame]
  · simp only [hn, true_or, if_true, ite_self]

/-- A page that is not the last one is read up to its last score, and the rest behind that. -/
theorem RangeRequest.zrangeLoop_next (h : RangeRequest st n maxlimit min pagesize) {L : Libs}
    (hL : ∀ b, 8 ≤ b.length → L.redisReadInt64 b = int64Be b) (hs : min - 1 ≤ s) (fuel : Nat) {max : Int}
    (hend : PageEnd st.zset now n min pagesize s max)
    (hmax : clampMax n (s + wanted st.zset now min pagesize s) = max) (hlast : ¬ LastPage st.zset now n s max) :
    ∃ l : Nat, NextPage st.zset now n min pagesize s l ∧ (l : Int) < n ∧
      1 ≤ wanted st.zset now min pagesize l ∧
      unexpired st.zset now (s + 1) max = unexpired st.zset now (s + 1) l ∧
      zrangeLoop L now maxlimit st.zset n (fuel + 1) (s + 1) (wanted st.zset now min pagesize s) =
        match zrangeLoop L now maxlimit st.zset n fuel (l + 1) (wanted st.zset now min pagesize l) with
        | .vals t1 max => .vals (unexpired st.zset now (s + 1) l ++ t1) max
        | .err max => .vals (unexpired st.zset now (s + 1) l) max
        | .raised => .raised := by
  simp only [LastPage, not_or] at hlast
  obtain ⟨hexp, hn⟩ := hlast
  have hring := h.ring
  have hless := unexpired_length_lt_iff.2 hexp
  have hin : ¬ (max ≥ n ∨ max ≥ intMaxRing) := by omega
  have hsame := hend.below (by omega)
  have hcall := h.zrangeLoop_call hL hs fuel hend hmax
  cases hl : (pageEntries st.zset s max).getLast? with
  | none =>
    rw [List.getLast?_eq_none_iff.1 hl] at hless
    exact absurd hless (Nat.not_lt_zero _)
  | some e =>
    obtain ⟨he, hgreatest⟩ := SortedSet.getLast?_rangeByScore hl
    obtain ⟨hmem, hse, hem⟩ := mem_pageEntries.1 he
    have hupto : unexpired st.zset now (s + 1) max = unexpired st.zset now (s + 1) e.1 := by
      apply unexpired_upto h.onePerScore (by omega) hem
      intro a ha hsa ham
      exact Int.ofNat_le.2 (hgreatest a (mem_pageEntries.2 ⟨ha, by omega, ham⟩))
    have hwant : wanted st.zset now min pagesize e.1 =
        wanted st.zset now min pagesize s - (unexpired st.zset now (s + 1) e.1).length := wanted_next h.onePerScore hs hse.le
    have hcount : (pageEntries st.zset s max).length ≤ (max - s).toNat := by
      apply h.onePerScore.length_rangeByScore_le
      intro x hx
      simp only [Bool.and_eq_true, decide_eq_true_eq] at hx
      omega
    refine ⟨e.1, ⟨by omega, ?_, ⟨e, hmem, rfl, hse, by omega⟩, ?_⟩, by omega, ?_, hupto, ?_⟩
    · simp only [not_forall, not_not] at hexp
      obtain ⟨a, ha, hexp⟩ := hexp
      obtain ⟨ha, hsa, ham⟩ := mem_pageEntries.1 ha
      exact ⟨a, ha, hsa, by omega, hexp⟩
    · rintro score ⟨a, ha, rfl, hsa, ham⟩
      exact Int.ofNat_le.2 (hgreatest a (mem_pageEntries.2 ⟨ha, hsa, by omega⟩))
    · -- at least one of the page is dropped
      rw [← hupto] at hwant
      have := hend.behind
      omega
    · rw [hupto] at hless
      rw [hcall]
      simp only [hupto, if_pos hless, if_neg hin, hl, ← hwant]

/-! ## All pages -/

theorem pagesInside_last {zset : SortedSet Nat Bytes} {max : Int} (hend : PageEnd zset now n min pagesize s max)
    (hlast : LastPage zset now n s max) :
    max ≤ n ↔ (n : ℚ) > intMaxRing2 ∨ ∀ s', Relation.ReflTransGen (NextPage zset now n min pagesize) s s' →
      s' + wanted zset now min pagesize s' ≤ n := by
  by_cases hr : (n : ℚ) > intMaxRing2
  · exact iff_of_true (hend.cut hr) (Or.inl hr)
  · have hmax := hend.uncut hr
    have hstop : ∀ l, ¬ NextPage zset now n min pagesize s l := by
      intro l hnext
      rcases hlast with hfresh | hn
      · obtain ⟨e, he, hse, hem, hexp⟩ := hnext.expired
        exact hfresh e (mem_pageEntries.2 ⟨he, hse, by omega⟩) hexp
      · have := hnext.below
        omega
    constructor
    · intro hle
      refine Or.inr fun s' hs' => ?_
      rcases hs'.cases_head with rfl | ⟨l, hnext, -⟩
      · omega
      · exact absurd hnext (hstop l)
    · rintro (hx | hall)
      · exact absurd hx hr
      · have := hall s .refl
        omega

theorem pagesInside_next {zset : SortedSet Nat Bytes} (hnext : NextPage zset now n min pagesize s l) :
    (∀ s', Relation.ReflTransGen (NextPage zset now n min pagesize) l s' → s' + wanted zset now min pagesize s' ≤ n) ↔
      ∀ s', Relation.ReflTransGen (NextPage zset now n min pagesize) s s' →
        s' + wanted zset now min pagesize s' ≤ n := by
  constructor
  · intro hall s' hs'
    rcases hs'.cases_head with rfl | ⟨l', hnext', hs'⟩
    · exact hnext.below.le
    · rw [hnext'.last.unique hnext.last] at hs'
      exact hall s' hs'
  · intro hall s' hs'
    exact hall s' (.head hnext hs')

/-- Fewer members are left behind a member's score. -/
theorem members_left_lt {zset : SortedSet Nat Bytes} (hone : zset.OnePerScore) {e : Nat × Bytes} (he : e ∈ zset.entries)
    (hel : (e.1 : Int) = l) (hsl : s < l) :
    (zset.rangeByScore fun score => decide (l < score)).length <
      (zset.rangeByScore fun score => decide (s < score)).length := by
  have hsplit : zset.rangeByScore (fun score => decide (s < score)) =
      zset.rangeByScore (fun score => decide (s < score) && decide ((score : Int) ≤ l)) ++
        zset.rangeByScore (fun score => decide (l < score)) := by
    apply hone.rangeByScore_append
    · intro x y hx hy
      simp only [Bool.and_eq_true, decide_eq_true_eq] at hx hy
      omega
    · intro x
      rw [Bool.eq_iff_iff]
      simp only [Bool.or_eq_true, Bool.and_eq_true, decide_eq_true_eq]
      omega
  have hpos : 0 < (zset.rangeByScore fun score => decide (s < score) && decide ((score : Int) ≤ l)).length := by
    apply List.length_pos_of_mem
    exact SortedSet.mem_rangeByScore.2 ⟨he, by simp [hel, hsl]⟩
  rw [hsplit, List.length_append]
  omega

/-- What is read is complete up to the end that is returned. The induction is on the members that
are left. -/
theorem RangeRequest.zrangeLoop_reads (h : RangeRequest st n maxlimit min pagesize) {L : Libs}
    (hL : ∀ b, 8 ≤ b.length → L.redisReadInt64 b = int64Be b) {fuel : Nat} (hs : min - 1 ≤ s) (hsn : s < n)
    (hw : 1 ≤ wanted st.zset now min pagesize s)
    (hfuel : (st.zset.rangeByScore fun score => decide (s < score)).length < fuel) :
    ∃ max, zrangeLoop L now maxlimit st.zset n fuel (s + 1) (wanted st.zset now min pagesize s) =
        .vals (unexpired st.zset now (s + 1) max) max ∧ s < max ∧
      (max ≤ n ↔ (n : ℚ) > intMaxRing2 ∨ ∀ s', Relation.ReflTransGen (NextPage st.zset now n min pagesize) s s' →
        s' + wanted st.zset now min pagesize s' ≤ n) := by
  induction fuel generalizing s with
  | zero => exact absurd hfuel (Nat.not_lt_zero _)
  | succ fuel ih =>
    have hend := h.pageEnd hsn hw
    by_cases hlast : LastPage st.zset now n s (clampMax n (s + wanted st.zset now min pagesize s))
    · exact ⟨_, h.zrangeLoop_last hL hs fuel hend rfl hlast, hend.behind, pagesInside_last hend hlast⟩
    · obtain ⟨l, hnext, hln, hwl, -, hcall⟩ := h.zrangeLoop_next hL hs fuel hend rfl hlast
      obtain ⟨e, he, hel, hsl, -⟩ := hnext.last.1
      have hfewer := members_left_lt h.onePerScore he hel hsl
      obtain ⟨max, hrest, hlm, hiff⟩ := ih (by omega) hln hwl (by omega)
      simp only [hrest] at hcall
      have hall : unexpired st.zset now (s + 1) max = unexpired st.zset now (s + 1) l ++ unexpired st.zset now (l + 1) max :=
        unexpired_append h.onePerScore (by omega) hlm.le
      refine ⟨max, ?_, by omega, ?_⟩
      · rw [hcall, hall]
      · rw [hiff, pagesInside_next hnext]

/-- What is read, exactly, and when its end is not behind the counter. -/
theorem RangeRequest.mqttZrangebyscore_reads (h : RangeRequest st n maxlimit min pagesize) {L : Libs}
    (hL : ∀ b, 8 ≤ b.length → L.redisReadInt64 b = int64Be b) (now : Int) :
    ∃ max, (mqttZrangebyscore L st now maxlimit min pagesize).2 = .vals (unexpired st.zset now min max) max ∧
      min ≤ max ∧ (max ≤ n ↔ PagesInside st.zset now n min pagesize) := by
  have hlimit : ¬ pagesize > maxlimit := not_lt.2 h.size_le
  have hfirst : wanted st.zset now min pagesize (min - 1) = pagesize := wanted_first st.zset
  have hsize := h.size_pos
  have hin := h.inside
  have hfuel : (st.zset.rangeByScore fun score => decide (min - 1 < score)).length < st.zset.entries.length + 1 :=
    Nat.lt_succ_of_le (List.length_filter_le _ _)
  obtain ⟨max, hloop, hlt, hiff⟩ := h.zrangeLoop_reads hL (le_refl (min - 1)) (by omega) (hfirst ▸ hsize) hfuel
  rw [hfirst, Int.sub_add_cancel] at hloop
  refine ⟨max, ?_, by omega, hiff⟩
  simp only [mqttZrangebyscore, if_neg hlimit, currentOffset_of_counter h.counter]
  exact hloop

/-- **Reading a range**: a call reads exactly the unexpired entries up to an end at or below the
counter, exactly when every page ends there. -/
theorem rangeRead_iff {L : Libs} (hL : ∀ b, 8 ≤ b.length → L.redisReadInt64 b = int64Be b)
    (h : RangeRequest st n maxlimit min pagesize) (now : Int) :
    ReadsUpTo st.zset now n min (mqttZrangebyscore L st now maxlimit min pagesize).2 ↔
      PagesInside st.zset now n min pagesize := by
  obtain ⟨max, hread, hle, hiff⟩ := h.mqttZrangebyscore_reads hL now
  rw [hread, ← hiff]
  constructor
  · intro hreads
    exact hreads.2.1
  · intro hn
    refine ⟨hle, hn, ?_, fun e => mem_unexpired⟩
    exact (h.onePerScore.rangeByScore_sorted _).filter _

end

/-! ## Twelve messages -/

def bigEndian : Libs := ⟨int64Be, int64Be⟩

theorem redisReadInt64_bigEndian (b : Bytes) (_ : 8 ≤ b.length) : bigEndian.redisReadInt64 b = int64Be b := by
  rw [bigEndian]

/-- Message `k`, with the timestamp 1 when it is one of the first `old`. -/
def stamped (old k : Nat) : Nat × Bytes :=
  (k, [0x30, 15, 0, 1, 0, 0, 0, 0, 0, 0, 0, if k ≤ old then 1 else 0, 0, 1, 0x61, 0, UInt8.ofNat k])

theorem publishMessage_stamped (old k : Nat) : PublishMessage (stamped old k).2 :=
  .mk 0x30 [] 15 [0, 1, 0, 0, 0, 0, 0, 0, 0, if k ≤ old then 1 else 0, 0, 1, 0x61, 0, UInt8.ofNat k]
    (by decide) (by simp) (by decide) (by rfl) (by simp)

def twelve (old : Nat) : List (Nat × Bytes) := (List.range' 1 12).map (stamped old)

theorem rangeRequest_twelve {zset : SortedSet Nat Bytes} {old : Nat} (h : zset.entries = twelve old) :
    RangeRequest ⟨some 12, zset⟩ 12 9999999 1 10 := by
  have hscores : zset.entries.map Prod.fst = List.range' 1 12 := by
    rw [h, twelve, List.map_map]
    exact List.map_id _
  have hmem : ∀ e ∈ zset.entries, e.1 ∈ List.range' 1 12 := by
    intro e he
    rw [← hscores]
    exact List.mem_map_of_mem he
  refine ⟨rfl, by decide, ?_, ?_, ?_, by omega, by omega, by omega, by omega, by omega⟩
  · rw [SortedSet.OnePerScore, hscores]
    decide
  · intro e he
    have := List.mem_range'_1.1 (hmem e he)
    omega
  · intro e he
    rw [h] at he
    obtain ⟨k, -, rfl⟩ := List.mem_map.1 he
    exact publishMessage_stamped old k

/-- The first message is expired. -/
def oneExpired : SortedSet Nat Bytes := ⟨twelve 1, by decide +kernel, by decide +kernel⟩

theorem rangeRead_iff_oneExpired :
    RangeRequest ⟨some 12, oneExpired⟩ 12 9999999 1 10 ∧
      (ReadsUpTo oneExpired 2 12 1 (mqttZrangebyscore bigEndian ⟨some 12, oneExpired⟩ 2 9999999 1 10).2 ↔
        PagesInside oneExpired 2 12 1 10) :=
  ⟨rangeRequest_twelve rfl, rangeRead_iff redisReadInt64_bigEndian (rangeRequest_twelve rfl) 2⟩

/-- The first ten messages are expired. -/
def tenExpired : SortedSet Nat Bytes := ⟨twelve 10, by decide +kernel, by decide +kernel⟩

/-- Ten entries are still wanted behind score 10, where two are left: the end returned is 20. -/
theorem rangeRead_ahead :
    ¬ ∀ (L : Libs), (∀ b, 8 ≤ b.length → L.redisReadInt64 b = int64Be b) →
      ∀ (st : TopicKey) (n : Nat) (maxlimit min pagesize now : Int), RangeRequest st n maxlimit min pagesize →
        ReadsUpTo st.zset now n min (mqttZrangebyscore L st now maxlimit min pagesize).2 := by
  intro h
  have hread : (mqttZrangebyscore bigEndian ⟨some 12, tenExpired⟩ 2 9999999 1 10).2 =
      .vals [stamped 10 11, stamped 10 12] 20 := by decide +kernel
  have hreads := h bigEndian redisReadInt64_bigEndian ⟨some 12, tenExpired⟩ 12 9999999 1 10 2 (rangeRequest_twelve rfl)
  rw [hread] at hreads
  exact absurd hreads.2.1 (by decide)

end NgxPlus.Mqtt
