import NgxPlus.Mqtt.Topic

/-!
# What a wildcard stands for

The comment of `ngx_mqtt_topic_wildcard_match` (`ngx_http_lua_mqtt_module.c:293-304`) reads topic
and filter by levels: `+` stands for one level, a final `#` for any number (`levelsMatch`). The
function goes through both byte by byte. `wildcardIn` is the same walk over the bytes of the topic
only, `none` where a byte at or behind the end is read; `levelWalk` is what it does level by level.

`matchesLevels_iff` says for which topics and filters the walk stays inside and answers as the
comment does.
-/

namespace NgxPlus.Mqtt

open ByteMem

def plus : Bytes := [0x2b]

def sharp : Bytes := [0x23]

/-! ## The comment -/

def levels (s : Bytes) : List Bytes := s.splitOn 0x2f

/-- `+` is a whole level, `#` the whole last level. -/
def ValidLevels (fs : List Bytes) : Prop :=
  ∀ pre f post, fs = pre ++ f :: post → (0x2b ∈ f → f = plus) ∧ (0x23 ∈ f → f = sharp ∧ post = [])

def levelsMatch : List Bytes → List Bytes → Bool
  | [], ts => ts.isEmpty
  | f :: fs, ts =>
    if f = sharp ∧ fs = [] then true
    else match ts with
      | [] => false
      | t :: ts => (f = plus || f = t) && levelsMatch fs ts

/-! ## The walk inside the topic -/

def plusIn (topic : Bytes) : Nat → Nat → Option Nat
  | 0, j => some j
  | fuel + 1, j =>
    match topic[j]? with
    | none => none
    | some oc => if oc ≠ 0x2f ∧ j + 1 < topic.length then plusIn topic fuel (j + 1) else some (j + 1)

def wildcardIn (topic : Bytes) (seachLen : Nat) : Bytes → Nat → Nat → Option Bool
  | [], _, j => some (decide (topic.length = j))
  | c :: search, i, j =>
    if c = 0x2b then
      match plusIn topic (topic.length + 1) j with
      | none => none
      | some j =>
        if j < topic.length then
          if i ≥ seachLen - 1 then some false else wildcardIn topic seachLen search (i + 1) (j - 1)
        else some true
    else if c = 0x23 then some true
    else
      match topic[j]? with
      | none => none
      | some oc =>
        if c = 0x2f then
          if c ≠ oc then some (decide (sizeSub i (j + 1) = 2))
          else wildcardIn topic seachLen search (i + 1) (j + 1)
        else if c ≠ oc then some false
        else wildcardIn topic seachLen search (i + 1) (j + 1)

/-- `none` where the function reads behind the topic. -/
def wildcardMatchIn (topic search : Bytes) : Option Bool :=
  if topic.length < search.length then some false else wildcardIn topic search.length search 0 0

theorem get_of_getElem? {topic : Bytes} {j : Nat} {c : UInt8} (h : topic[j]? = some c) (m : Mem) :
    (topic ++ₛ m).get j = c := by
  obtain ⟨hlt, hc⟩ := List.getElem?_eq_some_iff.1 h
  rw [Stream'.get_append_left _ _ _ hlt, hc]

theorem plusIn_some {topic : Bytes} {fuel j k : Nat} (h : plusIn topic fuel j = some k) (m : Mem) :
    plusLoop (topic ++ₛ m) topic.length fuel j = k := by
  induction fuel generalizing j with
  | zero => exact Option.some.inj h
  | succ fuel ih =>
    rw [plusIn] at h
    cases hc : topic[j]? with
    | none =>
      rw [hc] at h
      cases h
    | some oc =>
      rw [plusLoop, get_of_getElem? hc]
      simp only [hc] at h
      split at h
      · next hgo => rw [if_pos hgo, ih h]
      · next hgo => rw [if_neg hgo, Option.some.inj h]

/-- Where it stays inside the topic, it is the function's walk. -/
theorem wildcardIn_some {topic : Bytes} {n : Nat} {search : Bytes} {i j : Nat} {b : Bool}
    (h : wildcardIn topic n search i j = some b) (m : Mem) :
    wildcardLoop (topic ++ₛ m) topic.length n search i j = b := by
  induction search generalizing i j with
  | nil => exact Option.some.inj h
  | cons c search ih =>
    rw [wildcardIn] at h
    rw [wildcardLoop]
    by_cases hplus : c = 0x2b
    · rw [if_pos hplus] at h ⊢
      cases hj : plusIn topic (topic.length + 1) j with
      | none =>
        rw [hj] at h
        cases h
      | some k =>
        simp only [hj] at h
        simp only [plusIn_some hj m]
        split at h
        · next hlt =>
          rw [if_pos hlt]
          split at h
          · next hlast => rw [if_pos hlast, Option.some.inj h]
          · next hlast => rw [if_neg hlast, ih h]
        · next hlt => rw [if_neg hlt, Option.some.inj h]
    rw [if_neg hplus] at h ⊢
    by_cases hsharp : c = 0x23
    · rw [if_pos hsharp] at h ⊢
      exact Option.some.inj h
    rw [if_neg hsharp] at h ⊢
    cases hc : topic[j]? with
    | none =>
      rw [hc] at h
      cases h
    | some oc =>
      simp only [hc] at h
      rw [get_of_getElem? hc]
      split at h
      · next hslash =>
        rw [if_pos hslash]
        split at h
        · next hne => rw [if_pos hne, Option.some.inj h]
        · next hne => rw [if_neg hne, ih h]
      · next hslash =>
        rw [if_neg hslash]
        split at h
        · next hne => rw [if_pos hne, Option.some.inj h]
        · next hne => rw [if_neg hne, ih h]

/-! ## One level -/

theorem getElem?_at (pre rest : Bytes) : (pre ++ rest)[pre.length]? = rest.head? := by
  rw [List.getElem?_append_right le_rfl, Nat.sub_self, List.head?_eq_getElem?]

theorem plusIn_behind (pre : Bytes) (fuel : Nat) : plusIn pre (fuel + 1) pre.length = none := by
  have h := getElem?_at pre []
  rw [List.append_nil] at h
  rw [plusIn, h]
  rfl

/-- To the end of the topic. -/
theorem plusIn_last {t : Bytes} (ht : 0x2f ∉ t) (hne : t ≠ []) (pre : Bytes) {fuel : Nat} (hfuel : t.length ≤ fuel) :
    plusIn (pre ++ t) fuel pre.length = some (pre ++ t).length := by
  induction t generalizing pre fuel with
  | nil => exact absurd rfl hne
  | cons c t ih =>
    rw [List.mem_cons, not_or] at ht
    obtain ⟨fuel, rfl⟩ : ∃ k, fuel = k + 1 := Nat.exists_eq_add_one.2 (by rw [List.length_cons] at hfuel; omega)
    rw [plusIn, getElem?_at, List.head?_cons]
    by_cases hend : t = []
    · subst hend
      simp
    · have hlt : pre.length + 1 < (pre ++ c :: t).length := by
        have := List.length_pos_of_ne_nil hend
        simp only [List.length_append, List.length_cons]
        omega
      simp only [if_pos (And.intro (Ne.symm ht.1) hlt)]
      have hfuel' : t.length ≤ fuel := by
        rw [List.length_cons] at hfuel
        omega
      have h := ih ht.2 hend (pre ++ [c]) hfuel'
      rwa [List.length_append, List.length_singleton, List.append_assoc, List.singleton_append] at h

/-- To the byte behind the next slash. -/
theorem plusIn_slash {t : Bytes} (ht : 0x2f ∉ t) (pre rest : Bytes) {fuel : Nat} (hfuel : t.length < fuel) :
    plusIn (pre ++ (t ++ 0x2f :: rest)) fuel pre.length = some (pre.length + t.length + 1) := by
  induction t generalizing pre fuel with
  | nil =>
    obtain ⟨fuel, rfl⟩ : ∃ k, fuel = k + 1 := Nat.exists_eq_add_one.2 (by omega)
    rw [plusIn, List.nil_append, getElem?_at]
    simp
  | cons c t ih =>
    rw [List.mem_cons, not_or] at ht
    obtain ⟨fuel, rfl⟩ : ∃ k, fuel = k + 1 := Nat.exists_eq_add_one.2 (by omega)
    have hlt : pre.length + 1 < (pre ++ (c :: t ++ 0x2f :: rest)).length := by
      simp only [List.length_append, List.length_cons]
      omega
    rw [plusIn, getElem?_at, List.cons_append, List.head?_cons]
    simp only [List.cons_append] at hlt
    simp only [if_pos (And.intro (Ne.symm ht.1) hlt)]
    have hfuel' : t.length < fuel := by
      rw [List.length_cons] at hfuel
      omega
    have h := ih ht.2 (pre ++ [c]) hfuel'
    rw [List.length_append, List.length_singleton, List.append_assoc, List.singleton_append] at h
    rw [h, List.length_cons]
    congr 1
    omega

/-- Bytes of the filter that stand for themselves. -/
def Literal (l : Bytes) : Prop := 0x2b ∉ l ∧ 0x23 ∉ l ∧ 0x2f ∉ l

theorem wildcardIn_literal {l : Bytes} (hl : Literal l) (pre rest search : Bytes) (n i : Nat) :
    wildcardIn (pre ++ rest) n (l ++ search) i pre.length =
      if l <+: rest then wildcardIn (pre ++ rest) n search (i + l.length) (pre.length + l.length)
      else if rest <+: l then none else some false := by
  induction l generalizing pre rest i with
  | nil => simp
  | cons c l ih =>
    simp only [Literal, List.mem_cons, not_or] at hl
    obtain ⟨⟨hplus, hl1⟩, ⟨hsharp, hl2⟩, hslash, hl3⟩ := hl
    rw [List.cons_append, wildcardIn, if_neg (Ne.symm hplus), if_neg (Ne.symm hsharp), getElem?_at]
    cases rest with
    | nil => simp
    | cons oc rest =>
      simp only [List.head?_cons, if_neg (Ne.symm hslash)]
      by_cases hc : c = oc
      · subst hc
        have h := ih ⟨hl1, hl2, hl3⟩ (pre ++ [c]) rest (i + 1)
        rw [List.append_assoc, List.singleton_append, List.length_append, List.length_singleton] at h
        simp only [ne_eq, not_true_eq_false, if_false, h, List.cons_prefix_cons, true_and, List.length_cons]
        congr 2
        · omega
        · omega
      · simp [hc, List.cons_prefix_cons, Ne.symm hc]

/-! ## Level by level -/

/-- `i` and `j` are the positions of the levels in filter and topic. -/
def levelWalk : List Bytes → List Bytes → Nat → Nat → Option Bool
  | [], _, _, _ => none
  | _ :: _, [], _, _ => none
  | f :: fs, t :: ts, i, j =>
    if f = plus then
      if ts = [] ∧ t = [] then none
      else if ts = [] ∨ ts = [[]] then some true
      else if fs = [] then some false
      else levelWalk fs ts (i + f.length + 1) (j + t.length + 1)
    else if f = sharp then some true
    else if f = t then
      if fs = [] then some (decide (ts = []))
      else if ts = [] then none
      else levelWalk fs ts (i + f.length + 1) (j + t.length + 1)
    else if f <+: t then
      if fs = [] then some false else some (decide (sizeSub (i + f.length) (j + f.length + 1) = 2))
    else if ts = [] ∧ t <+: f then none
    else some false

theorem wildcardIn_slash (pre rest search : Bytes) (n i : Nat) :
    wildcardIn (pre ++ 0x2f :: rest) n (0x2f :: search) i pre.length =
      wildcardIn (pre ++ 0x2f :: rest) n search (i + 1) (pre.length + 1) := by
  rw [wildcardIn, if_neg (by decide), if_neg (by decide), getElem?_at]
  simp

theorem wildcardIn_slash_other {c : UInt8} (hc : c ≠ 0x2f) (pre rest search : Bytes) (n i : Nat) :
    wildcardIn (pre ++ c :: rest) n (0x2f :: search) i pre.length = some (decide (sizeSub i (pre.length + 1) = 2)) := by
  rw [wildcardIn, if_neg (by decide), if_neg (by decide), getElem?_at]
  simp [Ne.symm hc]

theorem wildcardIn_slash_behind (pre search : Bytes) (n i : Nat) :
    wildcardIn pre n (0x2f :: search) i pre.length = none := by
  have h := getElem?_at pre []
  rw [List.append_nil] at h
  rw [wildcardIn, if_neg (by decide), if_neg (by decide), h]
  rfl

def joinLevels (ls : List Bytes) : Bytes := [0x2f].intercalate ls

theorem joinLevels_singleton (l : Bytes) : joinLevels [l] = l := List.intercalate_singleton

theorem joinLevels_cons (l : Bytes) {ls : List Bytes} (h : ls ≠ []) :
    joinLevels (l :: ls) = l ++ 0x2f :: joinLevels ls := by
  rw [joinLevels, List.intercalate_cons_of_ne_nil h, List.append_assoc]
  rfl

theorem joinLevels_eq_nil {ls : List Bytes} (h : ls ≠ []) : joinLevels ls = [] ↔ ls = [[]] := by
  match ls, h with
  | [l], _ => rw [joinLevels_singleton, List.cons.injEq, and_iff_left rfl]
  | l :: l' :: ls, _ =>
    rw [joinLevels_cons l (List.cons_ne_nil _ _)]
    simp

theorem ValidLevels.tail {f : Bytes} {fs : List Bytes} (h : ValidLevels (f :: fs)) : ValidLevels fs := by
  intro pre g post he
  exact h (f :: pre) g post (by rw [he]; rfl)

theorem validLevels_nil : ValidLevels [] := by
  intro pre f post he
  simp at he

theorem ValidLevels.cons {f : Bytes} {fs : List Bytes} (hplus : 0x2b ∈ f → f = plus)
    (hsharp : 0x23 ∈ f → f = sharp ∧ fs = []) (h : ValidLevels fs) : ValidLevels (f :: fs) := by
  intro pre g post he
  cases pre with
  | nil =>
    obtain ⟨rfl, rfl⟩ := List.cons.inj he
    exact ⟨hplus, hsharp⟩
  | cons _ pre => exact h pre g post (List.cons.inj he).2

theorem ValidLevels.literal {f : Bytes} {fs : List Bytes} (h : ValidLevels (f :: fs)) (hslash : 0x2f ∉ f)
    (hp : f ≠ plus) (hs : f ≠ sharp) : Literal f := by
  obtain ⟨hplus, hsharp⟩ := h [] f fs rfl
  exact ⟨fun hm => hp (hplus hm), fun hm => hs (hsharp hm).1, hslash⟩

theorem prefix_slash_iff {l t rest : Bytes} (hl : 0x2f ∉ l) : l <+: t ++ 0x2f :: rest ↔ l <+: t := by
  constructor
  · intro h
    rcases List.prefix_or_prefix_of_prefix h (List.prefix_append t _) with h' | ⟨z, rfl⟩
    · exact h'
    · rw [List.prefix_append_right_inj] at h
      cases z with
      | nil => exact ⟨[], by simp⟩
      | cons c z =>
        rw [List.cons_prefix_cons] at h
        exact absurd (by simp [h.1]) hl
  · intro h
    exact h.trans (List.prefix_append _ _)

theorem not_slash_prefix {l t rest : Bytes} (hl : 0x2f ∉ l) : ¬ t ++ 0x2f :: rest <+: l := by
  intro h
  exact hl (h.subset (by simp))

theorem wildcardIn_plus {t : Bytes} (ht : 0x2f ∉ t) (ts : List Bytes) (pre search : Bytes) {n i : Nat}
    (hn : n = i + (search.length + 1)) :
    wildcardIn (pre ++ joinLevels (t :: ts)) n (0x2b :: search) i pre.length =
      if ts = [] ∧ t = [] then none
      else if ts = [] ∨ ts = [[]] then some true
      else if search = [] then some false
      else wildcardIn (pre ++ joinLevels (t :: ts)) n search (i + 1) (pre.length + t.length) := by
  rw [wildcardIn, if_pos rfl]
  by_cases hts : ts = []
  · subst hts
    rw [joinLevels_singleton]
    by_cases ht0 : t = []
    · subst ht0
      rw [List.append_nil, plusIn_behind]
      simp
    · have hfuel : t.length ≤ (pre ++ t).length + 1 := by
        rw [List.length_append]
        omega
      rw [plusIn_last ht ht0 pre hfuel]
      simp [ht0]
  · have hfuel : t.length < (pre ++ joinLevels (t :: ts)).length + 1 := by
      rw [joinLevels_cons t hts, List.length_append, List.length_append]
      omega
    have hplus := plusIn_slash ht pre (joinLevels ts) hfuel
    rw [← joinLevels_cons t hts] at hplus
    have hlen : (pre ++ joinLevels (t :: ts)).length = pre.length + t.length + 1 + (joinLevels ts).length := by
      rw [joinLevels_cons t hts, List.length_append, List.length_append, List.length_cons]
      omega
    have hlast : i ≥ n - 1 ↔ search = [] := by
      rw [← List.length_eq_zero_iff]
      omega
    have hend : pre.length + t.length + 1 < (pre ++ joinLevels (t :: ts)).length ↔ ts ≠ [[]] := by
      rw [hlen, Ne, ← joinLevels_eq_nil hts, ← List.length_eq_zero_iff]
      omega
    simp only [hplus, hend, hlast, hts, false_and, false_or, if_false, Nat.add_sub_cancel]
    by_cases hempty : ts = [[]]
    · rw [if_neg (not_not.2 hempty), if_pos hempty]
    · rw [if_pos hempty, if_neg hempty]

theorem prefix_joinLevels {f : Bytes} (hf : 0x2f ∉ f) (t : Bytes) (ts : List Bytes) :
    f <+: joinLevels (t :: ts) ↔ f <+: t := by
  by_cases hts : ts = []
  · rw [hts, joinLevels_singleton]
  · rw [joinLevels_cons t hts, prefix_slash_iff hf]

theorem joinLevels_prefix {f : Bytes} (hf : 0x2f ∉ f) (t : Bytes) (ts : List Bytes) :
    joinLevels (t :: ts) <+: f ↔ ts = [] ∧ t <+: f := by
  by_cases hts : ts = []
  · rw [hts, joinLevels_singleton]
    simp
  · rw [joinLevels_cons t hts]
    simp [hts, not_slash_prefix hf]

theorem length_joinLevels (t : Bytes) (ts : List Bytes) :
    t.length ≤ (joinLevels (t :: ts)).length ∧ ((joinLevels (t :: ts)).length = t.length ↔ ts = []) := by
  by_cases hts : ts = []
  · rw [hts, joinLevels_singleton]
    simp
  · rw [joinLevels_cons t hts, List.length_append, List.length_cons]
    simp [hts]

theorem length_lt_of_prefix {f t : Bytes} (h : f <+: t) (hne : f ≠ t) : f.length < t.length :=
  lt_of_le_of_ne h.length_le fun he => hne (h.eq_of_length he)

/-- Where the filter's level is only the beginning of the topic's, its slash meets another byte. -/
theorem wildcardIn_slash_early {f t : Bytes} (ht : 0x2f ∉ t) (h : f <+: t) (hne : f ≠ t) (ts : List Bytes)
    (pre search : Bytes) (n i : Nat) :
    wildcardIn (pre ++ joinLevels (t :: ts)) n (0x2f :: search) i (pre.length + f.length) =
      some (decide (sizeSub i (pre.length + f.length + 1) = 2)) := by
  obtain ⟨z, rfl⟩ := h
  cases z with
  | nil => exact absurd (List.append_nil f).symm hne
  | cons c z =>
    have hc : c ≠ 0x2f := by
      rintro rfl
      exact ht (by simp)
    obtain ⟨rest, hrest⟩ : ∃ rest, joinLevels ((f ++ c :: z) :: ts) = f ++ c :: rest := by
      by_cases hts : ts = []
      · exact ⟨z, by rw [hts, joinLevels_singleton]⟩
      · exact ⟨z ++ 0x2f :: joinLevels ts, by rw [joinLevels_cons _ hts, List.append_assoc, List.cons_append]⟩
    have hstep := wildcardIn_slash_other hc (pre ++ f) rest search n i
    rw [List.append_assoc, List.length_append] at hstep
    rw [hrest, hstep]

section Level

variable {f t : Bytes} {fs ts : List Bytes} (ht : 0x2f ∉ t) (pre : Bytes) (i : Nat) {n : Nat}
  (hn : n = i + (joinLevels (f :: fs)).length)
  (hnext : fs ≠ [] → ts ≠ [] →
    wildcardIn (pre ++ joinLevels (t :: ts)) n (0x2f :: joinLevels fs) (i + f.length) (pre.length + t.length) =
      levelWalk fs ts (i + f.length + 1) (pre.length + t.length + 1))

include ht hn hnext in
/-- A level `+`. -/
theorem wildcardIn_level_plus (hf : f = plus) :
    wildcardIn (pre ++ joinLevels (t :: ts)) n (joinLevels (f :: fs)) i pre.length =
      levelWalk (f :: fs) (t :: ts) i pre.length := by
  subst hf
  rw [levelWalk, if_pos rfl]
  by_cases hlast : fs = []
  · subst hlast
    rw [joinLevels_singleton, plus, wildcardIn_plus ht ts pre [] (by rw [hn]; rfl), if_pos rfl, if_pos rfl]
  · rw [joinLevels_cons plus hlast] at hn ⊢
    have hstep := wildcardIn_plus ht ts pre (0x2f :: joinLevels fs) hn
    rw [if_neg (List.cons_ne_nil _ _)] at hstep
    rw [plus, List.singleton_append, hstep, if_neg hlast]
    by_cases hempty : ts = []
    · subst hempty
      simp
    · have hone : plus.length = 1 := rfl
      have hrest := hnext hlast hempty
      rw [hone] at hrest
      rw [hrest]
      rfl

/-- A level `#`. -/
theorem wildcardIn_level_sharp :
    wildcardIn (pre ++ joinLevels (t :: ts)) n (joinLevels (sharp :: fs)) i pre.length =
      levelWalk (sharp :: fs) (t :: ts) i pre.length := by
  have hhead : ∃ search, joinLevels (sharp :: fs) = 0x23 :: search := by
    by_cases hlast : fs = []
    · exact ⟨[], by rw [hlast, joinLevels_singleton]; rfl⟩
    · exact ⟨_, joinLevels_cons sharp hlast⟩
  obtain ⟨search, hsearch⟩ := hhead
  rw [levelWalk, if_neg (by decide), if_pos rfl, hsearch, wildcardIn, if_neg (by decide), if_pos rfl]

variable (hplus : f ≠ plus) (hsharp : f ≠ sharp) (hlit : Literal f)
include hplus hsharp hlit

/-- Any other level, at the end of the filter. -/
theorem wildcardIn_level_last :
    wildcardIn (pre ++ joinLevels (t :: ts)) n (joinLevels [f]) i pre.length =
      levelWalk [f] (t :: ts) i pre.length := by
  have hstep := wildcardIn_literal hlit pre (joinLevels (t :: ts)) [] n i
  rw [List.append_nil] at hstep
  rw [levelWalk, if_neg hplus, if_neg hsharp, joinLevels_singleton, hstep, wildcardIn, List.length_append]
  simp only [prefix_joinLevels hlit.2.2, joinLevels_prefix hlit.2.2, Nat.add_left_cancel_iff]
  obtain ⟨hle, heq⟩ := length_joinLevels t ts
  by_cases hft : f = t
  · subst hft
    rw [if_pos (List.prefix_refl f), if_pos rfl]
    simp only [heq, if_true]
  · rw [if_neg hft]
    by_cases hpre : f <+: t
    · have hlt := length_lt_of_prefix hpre hft
      rw [if_pos hpre, if_pos hpre, decide_eq_false (by omega)]
      rfl
    · rw [if_neg hpre, if_neg hpre]

include ht hnext in
/-- Any other level, with a slash behind it. -/
theorem wildcardIn_level_slash (hlast : fs ≠ []) :
    wildcardIn (pre ++ joinLevels (t :: ts)) n (joinLevels (f :: fs)) i pre.length =
      levelWalk (f :: fs) (t :: ts) i pre.length := by
  have hstep := wildcardIn_literal hlit pre (joinLevels (t :: ts)) (0x2f :: joinLevels fs) n i
  rw [levelWalk, if_neg hplus, if_neg hsharp, joinLevels_cons f hlast, hstep]
  simp only [prefix_joinLevels hlit.2.2, joinLevels_prefix hlit.2.2]
  by_cases hft : f = t
  · subst hft
    rw [if_pos (List.prefix_refl f), if_pos rfl, if_neg hlast]
    by_cases hempty : ts = []
    · subst hempty
      have hbehind := wildcardIn_slash_behind (pre ++ f) (joinLevels fs) n (i + f.length)
      rw [List.length_append] at hbehind
      rw [joinLevels_singleton, hbehind, if_pos rfl]
    · rw [if_neg hempty, hnext hlast hempty]
  · rw [if_neg hft]
    by_cases hpre : f <+: t
    · rw [if_pos hpre, if_pos hpre, if_neg hlast, wildcardIn_slash_early ht hpre hft]
    · rw [if_neg hpre, if_neg hpre]

end Level

theorem wildcardIn_levels {fs ts : List Bytes} (hfs : fs ≠ []) (hts : ts ≠ []) (hvalid : ValidLevels fs)
    (hf : ∀ f ∈ fs, 0x2f ∉ f) (ht : ∀ t ∈ ts, 0x2f ∉ t) (pre : Bytes) (i : Nat) {n : Nat}
    (hn : n = i + (joinLevels fs).length) :
    wildcardIn (pre ++ joinLevels ts) n (joinLevels fs) i pre.length = levelWalk fs ts i pre.length := by
  induction fs generalizing ts pre i with
  | nil => exact absurd rfl hfs
  | cons f fs ih =>
    obtain ⟨t, ts, rfl⟩ := List.exists_cons_of_ne_nil hts
    have hf0 := hf f List.mem_cons_self
    have ht0 := ht t List.mem_cons_self
    -- behind a level and a slash of both
    have hnext : fs ≠ [] → ts ≠ [] →
        wildcardIn (pre ++ joinLevels (t :: ts)) n (0x2f :: joinLevels fs) (i + f.length) (pre.length + t.length) =
          levelWalk fs ts (i + f.length + 1) (pre.length + t.length + 1) := by
      intro hfs hts
      have h := ih hfs hts hvalid.tail (fun g hg => hf g (List.mem_cons_of_mem _ hg))
        (fun g hg => ht g (List.mem_cons_of_mem _ hg)) (pre ++ t ++ [0x2f]) (i + f.length + 1)
        (by rw [hn, joinLevels_cons f hfs, List.length_append, List.length_cons]; omega)
      have hslash := wildcardIn_slash (pre ++ t) (joinLevels ts) (joinLevels fs) n (i + f.length)
      rw [List.length_append, List.append_assoc] at hslash
      rw [List.length_append, List.length_append, List.length_singleton, List.append_assoc, List.append_assoc,
        List.singleton_append] at h
      rw [joinLevels_cons t hts, hslash, h]
    by_cases hplus : f = plus
    · exact wildcardIn_level_plus ht0 pre i hn hnext hplus
    by_cases hsharp : f = sharp
    · subst hsharp
      exact wildcardIn_level_sharp pre i
    have hlit := hvalid.literal hf0 hplus hsharp
    by_cases hlast : fs = []
    · subst hlast
      exact wildcardIn_level_last pre i hplus hsharp hlit
    · exact wildcardIn_level_slash ht0 pre i hnext hplus hsharp hlit hlast

/-! ## Where it goes wrong -/

def Ordinary (f : Bytes) : Prop := f ≠ plus ∧ f ≠ sharp

/-- At levels of filter and topic, at positions `i` and `j`: a byte behind the topic is read
(`plusBehind`, `behind`); a `+` before or at the last level says yes although the rest does not
match (`plusLast`, `plusSlash`); so does a slash of the filter in the middle of a topic's level, three
bytes behind the filter (`lag`); or both go on to levels where this happens (`next`). -/
inductive Misjudged : List Bytes → List Bytes → Nat → Nat → Prop
  | plusBehind {f fs t ts i j} : f = plus → ts = [] → t = [] → Misjudged (f :: fs) (t :: ts) i j
  | plusLast {f fs t ts i j} : f = plus → ts = [] → levelsMatch fs [] = false → Misjudged (f :: fs) (t :: ts) i j
  | plusSlash {f fs t ts i j} : f = plus → ts = [[]] → levelsMatch fs [[]] = false → Misjudged (f :: fs) (t :: ts) i j
  | behind {f fs t ts i j} : Ordinary f → ts = [] → t <+: f → (f = t → fs ≠ []) → Misjudged (f :: fs) (t :: ts) i j
  | lag {f fs t ts i j} : Ordinary f → f <+: t → f ≠ t → fs ≠ [] →
      sizeSub (i + f.length) (j + f.length + 1) = 2 → Misjudged (f :: fs) (t :: ts) i j
  | next {f fs t ts i j} : f = plus ∧ ts ≠ [[]] ∨ Ordinary f ∧ f = t → fs ≠ [] → ts ≠ [] →
      Misjudged fs ts (i + f.length + 1) (j + t.length + 1) → Misjudged (f :: fs) (t :: ts) i j

theorem levelsMatch_cons {f : Bytes} (hf : f ≠ sharp) (fs : List Bytes) (t : Bytes) (ts : List Bytes) :
    levelsMatch (f :: fs) (t :: ts) = ((f = plus || f = t) && levelsMatch fs ts) := by
  rw [levelsMatch, if_neg fun h => hf h.1]

section

variable {f t : Bytes} {fs ts : List Bytes} {i j : Nat}

theorem misjudged_plus : Misjudged (plus :: fs) (t :: ts) i j ↔
    (ts = [] ∧ (t = [] ∨ levelsMatch fs [] = false)) ∨ (ts = [[]] ∧ levelsMatch fs [[]] = false) ∨
      (fs ≠ [] ∧ ts ≠ [] ∧ ts ≠ [[]] ∧ Misjudged fs ts (i + plus.length + 1) (j + t.length + 1)) := by
  constructor
  · intro h
    cases h with
    | plusBehind _ hts ht => exact Or.inl ⟨hts, Or.inl ht⟩
    | plusLast _ hts hno => exact Or.inl ⟨hts, Or.inr hno⟩
    | plusSlash _ hts hno => exact Or.inr (Or.inl ⟨hts, hno⟩)
    | behind ho => exact absurd rfl ho.1
    | lag ho => exact absurd rfl ho.1
    | next hgo hfs hts h =>
      rcases hgo with ⟨-, hslash⟩ | ⟨ho, -⟩
      · exact Or.inr (Or.inr ⟨hfs, hts, hslash, h⟩)
      · exact absurd rfl ho.1
  · rintro (⟨hts, ht | hno⟩ | ⟨hts, hno⟩ | ⟨hfs, hts, hslash, h⟩)
    · exact .plusBehind rfl hts ht
    · exact .plusLast rfl hts hno
    · exact .plusSlash rfl hts hno
    · exact .next (Or.inl ⟨rfl, hslash⟩) hfs hts h

theorem not_misjudged_sharp : ¬ Misjudged [sharp] (t :: ts) i j := by
  intro h
  cases h with
  | plusBehind hp => cases hp
  | plusLast hp => cases hp
  | plusSlash hp => cases hp
  | behind ho => exact ho.2 rfl
  | lag ho => exact ho.2 rfl
  | next _ hfs => exact hfs rfl

theorem misjudged_ordinary (hf : Ordinary f) : Misjudged (f :: fs) (t :: ts) i j ↔
    (ts = [] ∧ t <+: f ∧ (f = t → fs ≠ [])) ∨
      (f <+: t ∧ f ≠ t ∧ fs ≠ [] ∧ sizeSub (i + f.length) (j + f.length + 1) = 2) ∨
      (f = t ∧ fs ≠ [] ∧ ts ≠ [] ∧ Misjudged fs ts (i + f.length + 1) (j + t.length + 1)) := by
  constructor
  · intro h
    cases h with
    | plusBehind hp => exact absurd hp hf.1
    | plusLast hp => exact absurd hp hf.1
    | plusSlash hp => exact absurd hp hf.1
    | behind _ hts hpre hfs => exact Or.inl ⟨hts, hpre, hfs⟩
    | lag _ hpre hne hfs hlag => exact Or.inr (Or.inl ⟨hpre, hne, hfs, hlag⟩)
    | next hgo hfs hts h =>
      rcases hgo with ⟨hp, -⟩ | ⟨-, hft⟩
      · exact absurd hp hf.1
      · exact Or.inr (Or.inr ⟨hft, hfs, hts, h⟩)
  · rintro (⟨hts, hpre, hfs⟩ | ⟨hpre, hne, hfs, hlag⟩ | ⟨hft, hfs, hts, h⟩)
    · exact .behind hf hts hpre hfs
    · exact .lag hf hpre hne hfs hlag
    · exact .next (Or.inr ⟨hf, hft⟩) hfs hts h

end

theorem levelWalk_iff {fs ts : List Bytes} (hfs : fs ≠ []) (hts : ts ≠ []) (hvalid : ValidLevels fs) (i j : Nat) :
    levelWalk fs ts i j = some (levelsMatch fs ts) ↔ ¬ Misjudged fs ts i j := by
  induction fs generalizing ts i j with
  | nil => exact absurd rfl hfs
  | cons f fs ih =>
    obtain ⟨t, ts, rfl⟩ := List.exists_cons_of_ne_nil hts
    rw [levelWalk]
    by_cases hplus : f = plus
    · subst hplus
      rw [if_pos rfl, misjudged_plus, levelsMatch_cons (by decide), decide_eq_true rfl, Bool.true_or,
        Bool.true_and]
      by_cases hlast : ts = []
      · subst hlast
        by_cases ht : t = []
        · simp [ht]
        · cases hm : levelsMatch fs [] <;> simp [ht]
      · by_cases hslash : ts = [[]]
        · subst hslash
          cases hm : levelsMatch fs [[]] <;> simp
        · by_cases hend : fs = []
          · subst hend
            simp [hlast, hslash, levelsMatch]
          · simp [hlast, hslash, hend, ih hend hlast hvalid.tail]
    by_cases hsharp : f = sharp
    · obtain rfl := ((hvalid [] f fs rfl).2 (by rw [hsharp]; decide)).2
      subst hsharp
      rw [if_neg hplus, if_pos rfl, levelsMatch, if_pos ⟨rfl, rfl⟩]
      simp [not_misjudged_sharp]
    rw [if_neg hplus, if_neg hsharp, misjudged_ordinary ⟨hplus, hsharp⟩, levelsMatch_cons hsharp, decide_eq_false hplus,
      Bool.false_or]
    by_cases hft : f = t
    · subst hft
      by_cases hend : fs = []
      · subst hend
        cases ts <;> simp [levelsMatch]
      · by_cases hlast : ts = []
        · simp [hlast, hend]
        · simp [hlast, hend, ih hend hlast hvalid.tail]
    · by_cases hpre : f <+: t
      · have hback : ¬ t <+: f := fun h => hft (hpre.eq_of_length (le_antisymm hpre.length_le h.length_le))
        by_cases hend : fs = []
        · simp [hft, hpre, hback, hend]
        · simp [hft, hpre, hback, hend]
      · by_cases hback : ts = [] ∧ t <+: f
        · simp [hft, hpre, hback]
        · simp [hft, hpre]

/-! ## The function -/

theorem slash_not_mem_levels (s : Bytes) : ∀ l ∈ levels s, 0x2f ∉ l := by
  induction s with
  | nil => simp [levels]
  | cons c s ih =>
    rw [levels, List.splitOn_cons_eq_if_modifyHead]
    split
    · next hc =>
      rw [List.forall_mem_cons]
      exact ⟨List.not_mem_nil, ih⟩
    · next hc =>
      have hne := List.splitOn_ne_nil (0x2f : UInt8) s
      obtain ⟨l, ls, hl⟩ := List.exists_cons_of_ne_nil hne
      rw [levels, hl] at ih
      rw [hl, List.modifyHead_cons, List.forall_mem_cons]
      rw [List.forall_mem_cons] at ih
      refine ⟨?_, ih.2⟩
      rw [List.mem_cons, not_or]
      exact ⟨fun he => hc (by rw [← he]; rfl), ih.1⟩

theorem wildcardMatchIn_levels {topic search : Bytes} (hvalid : ValidLevels (levels search)) :
    wildcardMatchIn topic search =
      if topic.length < search.length then some false else levelWalk (levels search) (levels topic) 0 0 := by
  have hsearch : joinLevels (levels search) = search := List.intercalate_splitOn 0x2f
  have htopic : joinLevels (levels topic) = topic := List.intercalate_splitOn 0x2f
  have h := wildcardIn_levels (List.splitOn_ne_nil 0x2f search) (List.splitOn_ne_nil 0x2f topic) hvalid
    (slash_not_mem_levels search) (slash_not_mem_levels topic) [] 0 (Nat.zero_add _).symm
  rw [List.nil_append] at h
  change wildcardIn (joinLevels (levels topic)) (joinLevels (levels search)).length (joinLevels (levels search)) 0 0 =
    levelWalk (levels search) (levels topic) 0 0 at h
  rw [hsearch, htopic] at h
  rw [wildcardMatchIn]
  split
  · rfl
  · exact h

/-- No byte at or behind the topic's end is read, and the answer is the comment's, whatever lies
behind the topic. -/
structure MatchesLevels (topic search : Bytes) : Prop where
  inside : wildcardMatchIn topic search ≠ none
  eq : ∀ m : Mem, ngxMqttTopicWildcardMatch (topic ++ₛ m) topic.length search =
    levelsMatch (levels search) (levels topic)

theorem wildcardMatchIn_some {topic search : Bytes} {b : Bool} (h : wildcardMatchIn topic search = some b) (m : Mem) :
    ngxMqttTopicWildcardMatch (topic ++ₛ m) topic.length search = b := by
  rw [wildcardMatchIn] at h
  rw [ngxMqttTopicWildcardMatch]
  split at h
  · next hlt => rw [if_pos hlt, Option.some.inj h]
  · next hlt => rw [if_neg hlt, wildcardIn_some h]

theorem matchesLevels_iff_in {topic search : Bytes} :
    MatchesLevels topic search ↔ wildcardMatchIn topic search = some (levelsMatch (levels search) (levels topic)) := by
  constructor
  · rintro ⟨hin, heq⟩
    obtain ⟨b, hb⟩ := Option.ne_none_iff_exists'.1 hin
    rw [hb, ← heq (Stream'.const 0), wildcardMatchIn_some hb]
  · intro h
    refine ⟨by rw [h]; simp, wildcardMatchIn_some h⟩

/-- **Wildcards**: a valid filter is matched with a topic as the comment says, and inside the topic,
exactly when the topic is as long as the filter and nothing is misjudged on the way, or it is
shorter and does not match. -/
theorem matchesLevels_iff {search : Bytes} (hvalid : ValidLevels (levels search)) (topic : Bytes) :
    MatchesLevels topic search ↔
      if topic.length < search.length then levelsMatch (levels search) (levels topic) = false
      else ¬ Misjudged (levels search) (levels topic) 0 0 := by
  rw [matchesLevels_iff_in, wildcardMatchIn_levels hvalid]
  split
  · rw [Option.some_inj, eq_comm]
  · exact levelWalk_iff (List.splitOn_ne_nil 0x2f search) (List.splitOn_ne_nil 0x2f topic) hvalid 0 0

/-- `a/#` -/
theorem validLevels_underA : ValidLevels (levels [0x61, 0x2f, 0x23]) :=
  .cons (by decide) (by decide) (.cons (by decide) (by decide) validLevels_nil)

theorem matchesLevels_iff_underA : MatchesLevels [0x61, 0x2f, 0x62] [0x61, 0x2f, 0x23] := by
  refine (matchesLevels_iff validLevels_underA _).2 ?_
  rw [if_neg (by decide)]
  have hord : Ordinary [0x61] := ⟨by decide, by decide⟩
  intro h
  rcases (misjudged_ordinary hord).1 h with ⟨hts, -⟩ | ⟨-, hne, -⟩ | ⟨-, -, -, h⟩
  · cases hts
  · exact hne rfl
  · exact not_misjudged_sharp h

/-- `a/#` is longer than `a/`. -/
theorem underA_not_matched : ¬ ∀ topic search, ValidLevels (levels search) → MatchesLevels topic search := by
  intro h
  have hin := matchesLevels_iff_in.1 (h [0x61, 0x2f] [0x61, 0x2f, 0x23] validLevels_underA)
  exact absurd hin (by decide)

end NgxPlus.Mqtt
