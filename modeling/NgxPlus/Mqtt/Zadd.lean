import Mathlib.Data.List.Induction
import NgxPlus.Lib.ByteMem
import NgxPlus.Lib.SortedSet
import NgxPlus.Lib.Trace
import NgxPlus.Mqtt.Ring

/-!
# Publishing to a topic's sorted set (`redis-plus/strict.lua`)

| here | there |
| --- | --- |
| `TopicKey`      | what a key is: the sorted set, and `__ext_global_var_4mqtt[key]` |
| `currentOffset` | the counter, or the highest score (`:38-47`, `:101-110`) |
| `zaddPurge`     | what is removed before the next offset (`:49-56`) |
| `zaddPayload`   | the offset written into the message (`:61-73`) |
| `mqttZadd`      | `__f_mqtt_zadd` (`:36-77`), with the offset it returns |

A score is an offset, so scores are numbers; the bounds of `ZREMRANGEBYSCORE` are the thirds of
the ring and need not be. Only the first third is ever purged: the tests for the other two
compare an offset with a fraction. `zadd_ahead_clean` is what holds of the ring ahead of the
writer, `zadd_continues` when an offset follows the one before it.
-/

namespace NgxPlus.Mqtt

open ByteMem Trace

structure TopicKey where
  counter : Option Nat
  zset : SortedSet Nat Bytes

def TopicKey.empty : TopicKey := ⟨none, .empty⟩

def currentOffset (st : TopicKey) : Nat :=
  match st.counter with
  | some offset => offset
  | none =>
    match st.zset.last? with
    | none => 0
    | some e => e.1

theorem currentOffset_of_counter {st : TopicKey} {o : Nat} (h : st.counter = some o) : currentOffset st = o := by
  rw [currentOffset, h]

/-- A score between two bounds, both included. -/
def between (lo hi : ℚ) (score : Nat) : Bool := lo ≤ score && score ≤ hi

def zaddPurge (offset : Nat) (zset : SortedSet Nat Bytes) : Nat × SortedSet Nat Bytes :=
  if offset ≥ intMaxRing then (0, zset.remByScore (between 0 intMaxRing1))
  else if (offset : ℚ) = intMaxRing1 then
    (offset, zset.remByScore (between (intMaxRing1 + 1) intMaxRing2))
  else if (offset : ℚ) = intMaxRing2 then
    (offset, zset.remByScore (between (intMaxRing2 + 1) intMaxRing))
  else (offset, zset)

def zaddPayload (data : Bytes) (index : Int) (offset : Nat) : Bytes :=
  if index > 0 then
    let bOffset := [UInt8.ofNat (offset >>> 24 &&& 0xff), UInt8.ofNat (offset >>> 16 &&& 0xff),
      UInt8.ofNat (offset >>> 8 &&& 0xff), UInt8.ofNat (offset &&& 0xff)]
    data.take index.toNat ++ bOffset ++ data.drop (index.toNat + 4)
  else data

def mqttZadd (st : TopicKey) (data : Bytes) (index : Int) : TopicKey × Nat :=
  let (offset, zset) := zaddPurge (currentOffset st) st.zset
  let offset := offset + 1
  if index < 0 then (⟨some offset, zset⟩, offset)
  else (⟨some offset, zset.add offset (zaddPayload data index offset)⟩, offset)

/-! ## One call -/

theorem between_zero_ring1 (score : Nat) : between 0 intMaxRing1 score = decide (score ≤ 715826666) := by
  simp [between, cast_le_ring1]

/-- The tests for the second and the third third never succeed. -/
theorem zaddPurge_eq (offset : Nat) (zset : SortedSet Nat Bytes) :
    zaddPurge offset zset =
      if offset ≥ intMaxRing then (0, zset.remByScore fun score => decide (score ≤ 715826666)) else (offset, zset) := by
  unfold zaddPurge
  rw [if_neg cast_ne_ring1, if_neg cast_ne_ring2, funext between_zero_ring1]

theorem zaddPurge_fst (offset : Nat) (zset : SortedSet Nat Bytes) :
    (zaddPurge offset zset).1 + 1 = ringSucc offset := by
  rw [zaddPurge_eq, ringSucc]
  split <;> rfl

/-- The set that the call adds to. -/
def purged (st : TopicKey) : SortedSet Nat Bytes := (zaddPurge (currentOffset st) st.zset).2

theorem mem_purged {st : TopicKey} {e : Nat × Bytes} :
    e ∈ (purged st).entries ↔ e ∈ st.zset.entries ∧ (currentOffset st ≥ intMaxRing → 715826666 < e.1) := by
  rw [purged, zaddPurge_eq]
  by_cases h : currentOffset st ≥ intMaxRing
  · simp [h]
  · simp [h]

theorem mqttZadd_snd (st : TopicKey) (data : Bytes) (index : Int) :
    (mqttZadd st data index).2 = ringSucc (currentOffset st) := by
  rw [← zaddPurge_fst _ st.zset]
  cases hz : zaddPurge (currentOffset st) st.zset with
  | mk offset zset =>
    simp only [mqttZadd, hz]
    split <;> rfl

theorem mqttZadd_fst (st : TopicKey) (data : Bytes) (index : Nat) :
    (mqttZadd st data index).1 = ⟨some (ringSucc (currentOffset st)),
      (purged st).add (ringSucc (currentOffset st)) (zaddPayload data index (ringSucc (currentOffset st)))⟩ := by
  rw [← zaddPurge_fst _ st.zset]
  cases hz : zaddPurge (currentOffset st) st.zset with
  | mk offset zset =>
    simp only [mqttZadd, purged, hz]
    rw [if_neg (by omega)]

/-! ## Runs -/

inductive ZaddStep
  | zadd (data : Bytes) (index : Nat)
  /-- The server restarts: its Lua state is gone, the sorted set is not. -/
  | lose
deriving DecidableEq, Repr

/-- `last` is the offset that the previous call assigned. -/
structure Publisher where
  key : TopicKey
  last : Option Nat

def Publisher.start : Publisher := ⟨.empty, none⟩

def zaddStep (s : Publisher) : ZaddStep → Publisher
  | .zadd data index =>
    let (key, offset) := mqttZadd s.key data index
    ⟨key, some offset⟩
  | .lose => { s with key := { s.key with counter := none } }

theorem zaddStep_zadd (s : Publisher) (data : Bytes) (index : Nat) :
    zaddStep s (.zadd data index) = ⟨(mqttZadd s.key data index).1, some (ringSucc (currentOffset s.key))⟩ := by
  rw [← mqttZadd_snd s.key data index]
  rfl

/-- A run of calls without a restart. -/
def zadds (cs : List (Bytes × Nat)) : List ZaddStep := cs.map fun c => .zadd c.1 c.2

/-! ## The ring ahead of the writer -/

/-- After `n` calls. The first third is purged at the wrap, and nothing is written into it
ahead of the counter. -/
structure AheadInv (n : Nat) (st : TopicKey) : Prop where
  counter : currentOffset st = ringAt n
  lap : n ≤ intMaxRing → ∀ e ∈ st.zset.entries, e.1 ≤ n
  third : ringAt n ≤ 715826666 → ∀ e ∈ st.zset.entries, e.1 ≤ ringAt n ∨ 715826666 < e.1

theorem AheadInv.zadd {n : Nat} {st : TopicKey} (h : AheadInv n st) (data : Bytes) (index : Nat) :
    AheadInv (n + 1) (mqttZadd st data index).1 := by
  have hsucc := ringAt_succ n
  rw [mqttZadd_fst, h.counter, ← hsucc]
  refine ⟨rfl, ?_, ?_⟩
  · intro hn e he
    have hlt : ringAt n = n := ringAt_of_le (by omega)
    rcases SortedSet.mem_add.1 he with rfl | ⟨he, -⟩
    · exact (ringAt_of_le hn).le
    · have := h.lap (by omega) e (mem_purged.1 he).1
      omega
  · intro hr e he
    rcases SortedSet.mem_add.1 he with rfl | ⟨he, -⟩
    · exact Or.inl le_rfl
    · obtain ⟨he, hp⟩ := mem_purged.1 he
      rw [h.counter] at hp
      by_cases hw : ringAt n ≥ intMaxRing
      · exact Or.inr (hp hw)
      · rw [hsucc, ringSucc, if_neg hw] at hr ⊢
        rcases h.third (by omega) e he with h1 | h1 <;> omega

theorem aheadInv_run (cs : List (Bytes × Nat)) :
    AheadInv cs.length (run zaddStep .start (zadds cs)).key := by
  induction cs using List.reverseRecOn with
  | nil => exact ⟨rfl, by simp [zadds, Publisher.start, TopicKey.empty], by simp [zadds, Publisher.start, TopicKey.empty]⟩
  | append_singleton cs c ih =>
    have hrun : run zaddStep .start (zadds (cs ++ [c])) =
        zaddStep (run zaddStep .start (zadds cs)) (.zadd c.1 c.2) := by
      rw [zadds, List.map_append]
      exact run_concat _ _ _ _
    rw [hrun, List.length_append, zaddStep_zadd]
    exact ih.zadd c.1 c.2

/-- **The ring ahead of the writer**: when an offset is assigned in the first lap no member has
it or a higher one; when it is assigned in the first third of any lap no member has it or a
higher one of that third. -/
theorem zadd_ahead_clean (cs : List (Bytes × Nat)) (data : Bytes) (index : Nat) (e : Nat × Bytes) :
    let st := (run zaddStep .start (zadds cs)).key
    let o := (mqttZadd st data index).2
    e ∈ (purged st).entries →
      (cs.length < intMaxRing → e.1 < o) ∧ (o ≤ 715826666 → e.1 < o ∨ 715826666 < e.1) := by
  intro st o he
  have h := aheadInv_run cs
  obtain ⟨he, hp⟩ := mem_purged.1 he
  have ho : o = ringAt (cs.length + 1) := by
    rw [ringAt_succ, ← h.counter]
    exact mqttZadd_snd _ _ _
  rw [show currentOffset st = ringAt cs.length from h.counter] at hp
  refine ⟨fun hn => ?_, fun hr => ?_⟩
  · have := h.lap hn.le e he
    rw [ho, ringAt_of_le hn]
    omega
  · by_cases hw : ringAt cs.length ≥ intMaxRing
    · exact Or.inr (hp hw)
    · rw [ringAt_succ, ringSucc, if_neg hw] at ho
      rcases h.third (by omega) e he with h1 | h1 <;> omega

/-- The second call on a key: the member of the first is behind the writer. -/
theorem zadd_ahead_clean_second :
    ((1, [0x61]) : Nat × Bytes) ∈ (purged (run zaddStep .start (zadds [([0x61], 0)])).key).entries ∧
      1 < (mqttZadd (run zaddStep .start (zadds [([0x61], 0)])).key [0x62] (0 : Nat)).2 := by
  have he : ((1, [0x61]) : Nat × Bytes) ∈ (purged (run zaddStep .start (zadds [([0x61], 0)])).key).entries := by
    decide +kernel
  exact ⟨he, (zadd_ahead_clean [([0x61], 0)] [0x62] 0 (1, [0x61]) he).1 (by decide)⟩

/-! ### One payload again and again -/

/-- `k` calls with payload `a` leave its last score and the other members. -/
theorem run_replicate_zadd (a : Bytes) (s : Publisher) {c k : Nat} (hc : currentOffset s.key = c)
    (hk : 0 < k) (hle : c + k ≤ intMaxRing) :
    (run zaddStep s (List.replicate k (.zadd a 0))).key.counter = some (c + k) ∧
      (run zaddStep s (List.replicate k (.zadd a 0))).last = some (c + k) ∧
      ∀ e, e ∈ (run zaddStep s (List.replicate k (.zadd a 0))).key.zset.entries ↔
        e = (c + k, a) ∨ e ∈ s.key.zset.entries ∧ e.2 ≠ a := by
  induction k with
  | zero => omega
  | succ k ih =>
    rw [List.replicate_succ', run_concat, zaddStep_zadd, mqttZadd_fst]
    generalize hs' : run zaddStep s (List.replicate k (.zadd a 0)) = s'
    have hcur : currentOffset s'.key = c + k := by
      cases k with
      | zero => subst hs'; exact hc
      | succ k =>
        have := (ih (by omega) (by omega)).1
        rw [hs'] at this
        exact currentOffset_of_counter this
    have hent : ∀ e : Nat × Bytes, e ∈ s'.key.zset.entries ∧ e.2 ≠ a ↔ e ∈ s.key.zset.entries ∧ e.2 ≠ a := by
      intro e
      cases k with
      | zero => subst hs'; exact Iff.rfl
      | succ k =>
        have := (ih (by omega) (by omega)).2.2 e
        rw [hs'] at this
        rw [this]
        constructor
        · rintro ⟨rfl | h, hne⟩
          · exact absurd rfl hne
          · exact h
        · rintro h; exact ⟨Or.inr h, h.2⟩
    have hsucc : ringSucc (c + k) = c + (k + 1) := by
      rw [ringSucc, if_neg (by omega)]
      omega
    have hpay : ∀ o, zaddPayload a (0 : Nat) o = a := fun o => rfl
    rw [hcur, hsucc]
    refine ⟨rfl, rfl, fun e => ?_⟩
    rw [hpay, SortedSet.mem_add, mem_purged, hcur, ← hent e]
    have : ¬ c + k ≥ intMaxRing := by omega
    simp [this]

/-- No member has the offset, nor one of the next third of the ring. -/
def NextThirdClean (o : Nat) (zset : SortedSet Nat Bytes) : Prop :=
  ∀ e ∈ zset.entries, e.1 ≠ o ∧
    ¬ (0 < (e.1 + intMaxRing - o) % intMaxRing ∧ 3 * ((e.1 + intMaxRing - o) % intMaxRing) ≤ intMaxRing)

/-- The member of the first call stays in the first lap. -/
theorem first_member_stays {k : Nat} (hk : 0 < k) (hle : 1 + k < intMaxRing) :
    currentOffset (run zaddStep .start (zadds (([0x62], 0) :: List.replicate k ([0x61], 0)))).key = 1 + k ∧
      ((1, [0x62]) : Nat × Bytes) ∈
        (purged (run zaddStep .start (zadds (([0x62], 0) :: List.replicate k ([0x61], 0)))).key).entries := by
  have hcs : zadds (([0x62], 0) :: List.replicate k ([0x61], 0)) =
      [.zadd [0x62] 0] ++ List.replicate k (.zadd [0x61] 0) := by
    rw [zadds, List.map_cons, List.map_replicate, List.singleton_append]
  have hb : currentOffset (run zaddStep .start [.zadd [0x62] 0]).key = 1 := by decide +kernel
  obtain ⟨hcount, -, hmem⟩ := run_replicate_zadd [0x61] _ hb hk hle.le
  rw [hcs, run_append]
  have hcur : currentOffset (run zaddStep (run zaddStep .start [.zadd [0x62] 0])
      (List.replicate k (.zadd [0x61] 0))).key = 1 + k := currentOffset_of_counter hcount
  refine ⟨hcur, ?_⟩
  rw [mem_purged, hmem, hcur]
  exact ⟨Or.inr ⟨by decide +kernel, by decide⟩, fun hw => by omega⟩

/-- In the last third of the first lap the next third reaches round to the first messages,
which are only removed at the wrap. -/
theorem next_third_not_clean :
    ¬ ∀ (cs : List (Bytes × Nat)) (data : Bytes) (index : Nat),
      NextThirdClean (mqttZadd (run zaddStep .start (zadds cs)).key data index).2
        (purged (run zaddStep .start (zadds cs)).key) := by
  intro h
  obtain ⟨hcur, hmem⟩ := first_member_stays (k := 1431653333) (by decide) (by decide)
  have hbad := (h _ [0x61] 0 _ hmem).2
  rw [mqttZadd_snd, hcur] at hbad
  exact hbad (by decide)

/-! ## After a restart -/

/-- The offset assigned follows the one before it. -/
def Follows (s : Publisher) : ZaddStep → Prop
  | .zadd data index => ∀ p, s.last = some p → (mqttZadd s.key data index).2 = ringSucc p
  | .lose => True

/-- Where the counter is lost, the last offset is the highest score. -/
def HighestIsLast (s : Publisher) : ZaddStep → Prop
  | .zadd _ _ => s.key.counter = none → ∀ p, s.last = some p → s.key.zset.last?.map Prod.fst = some p
  | .lose => True

structure PublisherInv (s : Publisher) : Prop where
  counter : ∀ c, s.key.counter = some c → s.last = some c
  nonempty : s.last ≠ none → s.key.zset.entries ≠ []
  scores : ∀ e ∈ s.key.zset.entries, 1 ≤ e.1 ∧ e.1 ≤ intMaxRing
  last : ∀ p, s.last = some p → 1 ≤ p ∧ p ≤ intMaxRing

theorem ringSucc_range (o : Nat) : 1 ≤ ringSucc o ∧ ringSucc o ≤ intMaxRing := by
  unfold ringSucc
  split
  · decide
  · omega

theorem ringSucc_inj {a b : Nat} (ha : 1 ≤ a ∧ a ≤ intMaxRing) (hb : 1 ≤ b ∧ b ≤ intMaxRing)
    (h : ringSucc a = ringSucc b) : a = b := by
  unfold ringSucc at h
  split at h <;> split at h <;> omega

theorem PublisherInv.step {s : Publisher} (h : PublisherInv s) (c : ZaddStep) : PublisherInv (zaddStep s c) := by
  cases c with
  | zadd data index =>
    rw [zaddStep_zadd, mqttZadd_fst]
    refine ⟨fun _ hc => hc, fun _ hnil => ?_, fun e he => ?_, ?_⟩
    · have hin : (ringSucc (currentOffset s.key), zaddPayload data index (ringSucc (currentOffset s.key))) ∈
          ((purged s.key).add (ringSucc (currentOffset s.key))
            (zaddPayload data index (ringSucc (currentOffset s.key)))).entries := SortedSet.mem_add.2 (Or.inl rfl)
      rw [hnil] at hin
      simp at hin
    · rcases SortedSet.mem_add.1 he with rfl | ⟨he, -⟩
      · exact ringSucc_range _
      · exact h.scores e (mem_purged.1 he).1
    · rintro p hp
      obtain rfl := Option.some.inj hp
      exact ringSucc_range _
  | lose => exact ⟨fun _ hc => by simp [zaddStep] at hc, h.nonempty, h.scores, h.last⟩

theorem PublisherInv.follows_iff {s : Publisher} (h : PublisherInv s) (c : ZaddStep) :
    Follows s c ↔ HighestIsLast s c := by
  cases c with
  | lose => exact Iff.rfl
  | zadd data index =>
    simp only [Follows, HighestIsLast, mqttZadd_snd]
    cases hc : s.key.counter with
    | some o =>
      have hlast := h.counter o hc
      simp [currentOffset, hc, hlast]
    | none =>
      simp only [true_imp_iff]
      refine forall_congr' fun p => forall_congr' fun hp => ?_
      cases ht : s.key.zset.last? with
      | none => exact absurd (SortedSet.last?_eq_none.1 ht) (h.nonempty (by simp [hp]))
      | some e =>
        have he := h.scores e (SortedSet.last?_eq_some ht).1
        have hcur : currentOffset s.key = e.1 := by simp [currentOffset, hc, ht]
        rw [hcur, Option.map_some, Option.some.injEq]
        exact ⟨ringSucc_inj he (h.last p hp), fun hx => by rw [hx]⟩

/-- **Offsets after a restart**: in every run each offset follows the one before it, exactly
when at each call made without the counter the highest score is the last offset assigned. -/
theorem zadd_continues (cs : List ZaddStep) :
    Always zaddStep Follows .start cs ↔ Always zaddStep HighestIsLast .start cs := by
  refine always_congr (I := PublisherInv) zaddStep (fun _ c hs => hs.follows_iff c)
    (fun _ c hs _ => hs.step c) cs ?_
  exact ⟨by simp [Publisher.start, TopicKey.empty], by simp [Publisher.start],
    by simp [Publisher.start, TopicKey.empty], by simp [Publisher.start]⟩

/-- Behind a full lap of `a`, one `b` and a restart, the highest score is still that of `a`. -/
theorem highest_after_wrap {k : Nat} (hk : k = intMaxRing) :
    let s := zaddStep (zaddStep (run zaddStep .start (List.replicate k (.zadd [0x61] 0))) (.zadd [0x62] 0)) .lose
    s.last = some 1 ∧ currentOffset s.key = intMaxRing := by
  obtain ⟨hcount, -, hmem⟩ := run_replicate_zadd [0x61] .start (c := 0) (k := k) rfl (by rw [hk]; decide)
    (by rw [hk, Nat.zero_add])
  generalize run zaddStep .start (List.replicate k (.zadd [0x61] 0)) = s at hcount hmem
  have hcur : currentOffset s.key = intMaxRing := by rw [currentOffset_of_counter hcount, hk, Nat.zero_add]
  have hsucc : ringSucc intMaxRing = 1 := by decide
  rw [zaddStep_zadd, mqttZadd_fst, hcur, hsucc]
  refine ⟨rfl, ?_⟩
  have hin : ((intMaxRing, [0x61]) : Nat × Bytes) ∈
      ((purged s.key).add 1 (zaddPayload [0x62] (0 : Nat) 1)).entries := by
    refine SortedSet.mem_add.2 (Or.inr ⟨mem_purged.2 ⟨(hmem _).2 (Or.inl ?_), fun _ => by decide⟩, by decide⟩)
    rw [hk, Nat.zero_add]
  have hmax : ∀ e ∈ ((purged s.key).add 1 (zaddPayload [0x62] (0 : Nat) 1)).entries, e.1 ≤ intMaxRing := by
    intro e he
    rcases SortedSet.mem_add.1 he with rfl | ⟨he, -⟩
    · decide
    · rcases (hmem e).1 (mem_purged.1 he).1 with rfl | ⟨he, -⟩
      · rw [hk, Nat.zero_add]
      · simp [Publisher.start, TopicKey.empty] at he
  obtain ⟨e, he, h1⟩ := Option.map_eq_some_iff.1 (SortedSet.last?_score hin hmax)
  simp only [zaddStep, currentOffset, he]
  exact h1

/-- A full lap of `a`, then `b` at offset 1: after a restart that offset is assigned again. -/
theorem restart_after_wrap_repeats : ¬ ∀ cs : List ZaddStep, Always zaddStep Follows .start cs := by
  intro h
  obtain ⟨k, hk⟩ : ∃ k, k = intMaxRing := ⟨_, rfl⟩
  have hrun := h (List.replicate k (.zadd [0x61] 0) ++ [.zadd [0x62] 0, .lose, .zadd [0x62] 0])
  obtain ⟨hlast, htop⟩ := highest_after_wrap hk
  have hfol := ((always_append _).1 hrun).2.2.2.1 1 hlast
  rw [mqttZadd_snd, htop] at hfol
  exact absurd hfol (by decide)

end NgxPlus.Mqtt
