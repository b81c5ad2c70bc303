import Mathlib.Data.List.Infix
import Mathlib.Data.List.ProdSigma
import NgxPlus.Mqtt.Subscribe

/-!
# Delivery over a run

One topic, one publisher side and one subscriber with QoS 0. The ghost fields of `Subscription` are
`published`, the members in the order they were added, `notified`, the number of the message
whose offset is in `MQTT_TOPIC_DICT`, and `written`. The subscriber's place in the published
sequence is `c₀ + written.length`.

`delivered_in_order`: what is written is a contiguous segment behind the initial offset, in every
run in which no pass takes an offset it has already passed for a new one (`OldLooksOld`).
`end_of_ring_writes_again` is the run that does: at the end of the ring the consumer offset is
set to 0, and the offset it has just reached is then larger.
-/

namespace NgxPlus.Mqtt

open ByteMem Trace

structure Subscription where
  key : TopicKey
  published : List Bytes
  notified : Nat
  consumer : Int
  written : List Bytes

/-- The consumer offset is that of message `c₀`. -/
def Subscription.start (c₀ : Nat) : Subscription := ⟨.empty, [], 0, ringAt c₀, []⟩

inductive SubscriptionStep
  | publish (data : Bytes) (index : Nat)
  /-- The offset of message `k` gets into the dictionary. -/
  | notify (k : Nat)
  | pass (now : Int)

def subscriptionStep (L : Libs) (s : Subscription) : SubscriptionStep → Subscription
  | .publish data index =>
    let (key, offset) := mqttZadd s.key data index
    { s with key := key, published := s.published ++ [zaddPayload data index offset] }
  | .notify k => { s with notified := k }
  | .pass now =>
    if s.notified = 0 then s
    else
      let r := subscribePass L now (ringAt s.notified) ⟨s.key, s.consumer, []⟩
      { s with key := r.key, consumer := r.consumer, written := s.written ++ r.sent }

def Subscription.place (c₀ : Nat) (s : Subscription) : Nat := c₀ + s.written.length

/-- Messages are distinct, written with QoS 0 and do not expire; at most a third of the ring
follows the wrap. The offset in the dictionary is assigned and moves forward. The subscriber
starts at an assigned offset and is not too far behind. -/
def InDomain (L : Libs) (c₀ : Nat) (s : Subscription) : SubscriptionStep → Prop
  | .publish data index =>
    let m := zaddPayload data index (mqttZadd s.key data index).2
    m ∉ s.published ∧ Qos0 L m ∧ 3 * (s.published.length + 1 - intMaxRing) ≤ intMaxRing
  | .notify k => s.notified ≤ k ∧ k ≤ s.published.length
  | .pass now =>
    0 < c₀ ∧ c₀ ≤ s.published.length ∧ s.published.length ≤ s.place c₀ + subMaxRange.toNat ∧
      ∀ m ∈ s.published, Fresh L now m

/-- The offset of message `d` looks newer than that of message `c`, although `d ≤ c`: `c` is the
last of the ring, or `c` comes after the wrap and `d` before it, or `c` is in the last third of
the ring and `d` in the first. -/
def LooksNew (c d : Nat) : Prop :=
  c = intMaxRing ∨ intMaxRing < c ∧ d ≤ intMaxRing ∧ c < d + intMaxRing ∨
    1431653333 < c ∧ c < intMaxRing ∧ d ≤ 715826666

/-- A pass that finds no new offset does not find one that looks new. -/
def OldLooksOld (c₀ : Nat) (s : Subscription) : SubscriptionStep → Prop
  | .pass _ => 0 < s.notified → s.notified ≤ s.place c₀ → ¬ LooksNew (s.place c₀) s.notified
  | _ => True

/-! ## The sorted set -/

/-- The messages are in the set under their offsets, except those that the wrap removed. -/
structure TopicHolds (published : List Bytes) (st : TopicKey) : Prop where
  offset : currentOffset st = ringAt published.length
  total : 3 * (published.length - intMaxRing) ≤ intMaxRing
  member : ∀ e, e ∈ st.zset.entries ↔ ∃ i, published[i]? = some e.2 ∧ e.1 = ringAt (i + 1) ∧
    (intMaxRing < published.length → 715826666 ≤ i)

theorem TopicHolds.empty : TopicHolds [] .empty := by
  refine ⟨rfl, by decide, fun e => ?_⟩
  simp [TopicKey.empty]

/-- What the next call leaves: at the wrap, the messages from the second third on. -/
theorem TopicHolds.mem_purged {published : List Bytes} {st : TopicKey} (h : TopicHolds published st) {e : Nat × Bytes} :
    e ∈ (purged st).entries ↔ ∃ i, published[i]? = some e.2 ∧ e.1 = ringAt (i + 1) ∧
      (intMaxRing < published.length + 1 → 715826666 ≤ i) := by
  have hR : intMaxRing = 2147480000 := rfl
  have htotal := h.total
  rw [NgxPlus.Mqtt.mem_purged, h.member, h.offset, ge_iff_le, ringAt_ge_iff (by omega)]
  constructor
  · rintro ⟨⟨i, hi, he, hlap⟩, hpurge⟩
    refine ⟨i, hi, he, fun hw => ?_⟩
    have hlt : i < published.length := (List.getElem?_eq_some_iff.1 hi).1
    by_cases hn : published.length = intMaxRing
    · have hkept := hpurge hn
      rw [he, ringAt_of_le (by omega)] at hkept
      omega
    · exact hlap (by omega)
  · rintro ⟨i, hi, he, hlap⟩
    refine ⟨⟨i, hi, he, fun hw => hlap (by omega)⟩, fun hn => ?_⟩
    have hlt : i < published.length := (List.getElem?_eq_some_iff.1 hi).1
    have hkept := hlap (by omega)
    rw [he, ringAt_of_le (by omega)]
    omega

theorem TopicHolds.publish {published : List Bytes} {st : TopicKey} (h : TopicHolds published st) (data : Bytes) (index : Nat)
    (hnew : zaddPayload data index (mqttZadd st data index).2 ∉ published)
    (htotal : 3 * (published.length + 1 - intMaxRing) ≤ intMaxRing) :
    TopicHolds (published ++ [zaddPayload data index (mqttZadd st data index).2]) (mqttZadd st data index).1 := by
  have hsucc : (mqttZadd st data index).2 = ringAt (published.length + 1) := by
    rw [mqttZadd_snd, h.offset, ringAt_succ]
  rw [hsucc] at hnew
  rw [mqttZadd_fst, ← mqttZadd_snd st data index, hsucc]
  generalize zaddPayload data index (ringAt (published.length + 1)) = m at hnew ⊢
  refine ⟨by rw [List.length_append]; rfl, by simpa using htotal, fun e => ?_⟩
  rw [SortedSet.mem_add, h.mem_purged, List.length_append, List.length_singleton]
  constructor
  · rintro (rfl | ⟨⟨i, hi, he, hlap⟩, -⟩)
    · have hR : intMaxRing = 2147480000 := rfl
      exact ⟨published.length, by simp, rfl, fun hw => by omega⟩
    · have hlt : i < published.length := (List.getElem?_eq_some_iff.1 hi).1
      exact ⟨i, by rwa [List.getElem?_append_left hlt], he, hlap⟩
  · rintro ⟨i, hi, he, hlap⟩
    by_cases hlt : i < published.length
    · rw [List.getElem?_append_left hlt] at hi
      exact Or.inr ⟨⟨i, hi, he, hlap⟩, fun hm => hnew (hm ▸ List.mem_of_getElem? hi)⟩
    · obtain ⟨hlen, hget⟩ := List.getElem?_eq_some_iff.1 hi
      have : i = published.length := by simp at hlen; omega
      subst this
      left
      ext1
      · exact he
      · simpa using hget.symm

/-- The entries of the messages `c + 1`, …, `c + p`, the first with score `score`. -/
def pageOf (published : List Bytes) (c p score : Nat) : List (Nat × Bytes) :=
  (((published.drop c).take p).zipIdx score).map Prod.swap

theorem map_frame_pageOf (L : Libs) (published : List Bytes) (c p score : Nat) :
    ((pageOf published c p score).map fun e => frame L e.2) = ((published.drop c).take p).map (frame L) := by
  rw [pageOf, List.map_map, show (fun e : Nat × Bytes => frame L e.2) ∘ Prod.swap = frame L ∘ Prod.fst from rfl,
    ← List.map_map, List.zipIdx_map_fst]

theorem mem_pageOf {published : List Bytes} {c p score : Nat} {e : Nat × Bytes} :
    e ∈ pageOf published c p score ↔ score ≤ e.1 ∧ e.1 < score + p ∧ published[c + (e.1 - score)]? = some e.2 := by
  obtain ⟨o, m⟩ := e
  rw [pageOf, List.mem_map_swap, List.mk_mem_zipIdx_iff_le_and_getElem?_sub, List.getElem?_take, List.getElem?_drop]
  by_cases h : o - score < p
  · rw [if_pos h]
    constructor <;> rintro ⟨h1, h2⟩
    · exact ⟨h1, by omega, h2⟩
    · exact ⟨h1, h2.2⟩
  · rw [if_neg h]
    simp
    omega

theorem pageOf_sorted (published : List Bytes) (c p score : Nat) :
    (pageOf published c p score).Pairwise fun a b => a.1 < b.1 := by
  have hscores : ((((published.drop c).take p).zipIdx score).map Prod.snd).Pairwise (· < ·) := by
    rw [List.zipIdx_map_snd]
    exact List.pairwise_lt_range'
  exact List.pairwise_map.2 (List.pairwise_map.1 hscores)

section

variable {L : Libs} {published : List Bytes} {st : TopicKey} {c p b : Nat}

/-- The messages `c + 1`, …, `c + p` are of one lap, which begins behind message `b`, and the
wrap did not remove them. -/
def OneLap (n c p b : Nat) : Prop :=
  b = 0 ∧ c + p ≤ intMaxRing ∧ (intMaxRing < n → 715826666 ≤ c) ∨ b = intMaxRing ∧ intMaxRing ≤ c

theorem TopicHolds.range_eq (h : TopicHolds published st) (hlap : OneLap published.length c p b) (hle : c + p ≤ published.length)
    (hp : 0 < p) :
    (st.zset.rangeByScore fun score => decide (((c - b : Nat) : Int) + 1 ≤ score) &&
      decide ((score : Int) ≤ p + (((c - b : Nat) : Int) + 1) - 1)) = pageOf published c p (c - b + 1) := by
  have htotal := h.total
  have hR : intMaxRing = 2147480000 := rfl
  refine SortedSet.rangeByScore_eq (pageOf_sorted _ _ _ _) fun e => ?_
  rw [mem_pageOf, h.member, Bool.and_eq_true, decide_eq_true_eq, decide_eq_true_eq]
  constructor
  · rintro ⟨hlow, hhigh, hget⟩
    refine ⟨⟨c + (e.1 - (c - b + 1)), hget, ?_, ?_⟩, by omega, by omega⟩
    · rcases hlap with ⟨rfl, hend, -⟩ | ⟨rfl, hc⟩
      · rw [ringAt_of_le (by omega)]
        omega
      · rw [ringAt_second_lap (by omega) (by omega)]
        omega
    · intro hw
      rcases hlap with ⟨rfl, -, hlow⟩ | ⟨rfl, hc⟩
      · have := hlow hw
        omega
      · omega
  · rintro ⟨⟨i, hget, he, hkept⟩, hlow, hhigh⟩
    have hi : i < published.length := (List.getElem?_eq_some_iff.1 hget).1
    have hpos : c + (e.1 - (c - b + 1)) = i := by
      -- of the other lap nothing is left between the bounds
      rcases Nat.lt_or_ge intMaxRing (i + 1) with hw | hw
      · rw [ringAt_second_lap hw (by omega)] at he
        rcases hlap with ⟨rfl, -, hlow⟩ | ⟨rfl, hc⟩
        · have := hlow (by omega)
          omega
        · omega
      · rw [ringAt_of_le hw] at he
        rcases hlap with ⟨rfl, -, -⟩ | ⟨rfl, hc⟩
        · omega
        · have := hkept (by omega)
          omega
    exact ⟨by omega, by omega, by rw [hpos]; exact hget⟩

theorem TopicHolds.pageIs (h : TopicHolds published st) {now : Int} (hlap : OneLap published.length c p b)
    (hle : c + p ≤ published.length) (hp : 0 < p) (hp' : p ≤ subMaxRange.toNat)
    (hnear : published.length ≤ c + subMaxRange.toNat) (hq : ∀ m ∈ published, Qos0 L m)
    (hf : ∀ m ∈ published, Fresh L now m) :
    PageIs L now st ((c - b : Nat) + 1) p (pageOf published c p (c - b + 1)) := by
  have hmem : ∀ e ∈ pageOf published c p (c - b + 1), e.2 ∈ published :=
    fun e he => List.mem_of_getElem? (mem_pageOf.1 he).2.2
  have htotal := h.total
  have hR : intMaxRing = 2147480000 := rfl
  have hM : subMaxRange = 9999999 := rfl
  refine ⟨by omega, by omega, clampMax_eq ?_ ?_, ?_, h.range_eq hlap hle hp, fun e he => hq _ (hmem e he),
    fun e he => hf _ (hmem e he)⟩
  · rcases hlap with ⟨rfl, hend, -⟩ | ⟨rfl, hc⟩ <;> omega
  · rw [h.offset, Int.cast_natCast, gt_iff_lt, ring2_lt_cast]
    intro hlate
    rcases Nat.lt_or_ge intMaxRing published.length with hw | hw
    · rw [ringAt_second_lap hw (by omega)] at hlate
      omega
    · rw [ringAt_of_le hw]
      omega
  · rw [h.offset]
    have := ringAt_le published.length
    rcases Nat.lt_or_ge intMaxRing published.length with hw | hw
    · rw [ringAt_second_lap hw (by omega)]
      rcases hlap with ⟨rfl, hend, -⟩ | ⟨rfl, hc⟩ <;> omega
    · rw [ringAt_of_le hw]
      rcases hlap with ⟨rfl, hend, -⟩ | ⟨rfl, hc⟩ <;> omega

end

/-! ## A pass -/

/-- The consumer offset is that of message `c`; at the end of the ring it may also be 0. -/
def AtOffset (c : Nat) (consumer : Int) : Prop := consumer = ringAt c ∨ ringAt c = intMaxRing ∧ consumer = 0

theorem AtOffset.eq {c : Nat} {consumer : Int} (h : AtOffset c consumer) (hlt : ringAt c < intMaxRing) :
    consumer = ringAt c :=
  h.resolve_right fun h => by omega

theorem ringAdjust_cast (o k : Nat) :
    ringAdjust o k = if o ≥ intMaxRing then (0, (k : Int))
      else if 1431653333 < o ∧ k ≤ 715826666 then ((o : Int), (intMaxRing : Int)) else ((o : Int), (k : Int)) := by
  simp only [ringAdjust, Int.cast_natCast, gt_iff_lt, ring2_lt_cast, cast_lt_ring1, ge_iff_le, Nat.cast_le]

/-- Where message `d` is new, the pass goes from the lap's offset of `c` towards that of a
message `last`, which is `d` or the last of the ring. -/
theorem ringAdjust_new {consumer : Int} {n c d : Nat} (hat : AtOffset c consumer) (hcd : c < d) (hd : d ≤ n)
    (htotal : 3 * (n - intMaxRing) ≤ intMaxRing) (hnear : n ≤ c + subMaxRange.toNat) :
    ∃ b last, ringAdjust consumer (ringAt d) = (((c - b : Nat) : Int), ((last - b : Nat) : Int)) ∧ c < last ∧
      last ≤ d ∧ b ≤ c ∧ ∀ p, c + p ≤ last → OneLap n c p b := by
  have hR : intMaxRing = 2147480000 := rfl
  have hM : subMaxRange.toNat = 9999999 := rfl
  rcases Nat.lt_or_ge c intMaxRing with hc | hc
  · have hring := ringAt_of_le hc.le
    rw [hat.eq (by omega), hring, ringAdjust_cast, if_neg (by omega)]
    rcases Nat.lt_or_ge intMaxRing d with hw | hw
    · rw [ringAt_second_lap hw (by omega), if_pos (by omega)]
      exact ⟨0, intMaxRing, rfl, hc, hw.le, Nat.zero_le _, fun p hp => Or.inl ⟨rfl, hp, fun _ => by omega⟩⟩
    · rw [ringAt_of_le hw, if_neg (by omega)]
      exact ⟨0, d, rfl, hcd, le_rfl, Nat.zero_le _, fun p hp => Or.inl ⟨rfl, by omega, fun _ => by omega⟩⟩
  · refine ⟨intMaxRing, d, ?_, hcd, le_rfl, hc, fun p _ => Or.inr ⟨rfl, hc⟩⟩
    rw [ringAt_second_lap (by omega) (by omega)]
    rcases hc.eq_or_lt with rfl | hc
    · rw [AtOffset, ringAt_of_le le_rfl] at hat
      rw [Nat.sub_self]
      rcases hat with rfl | ⟨-, rfl⟩
      · rw [ringAdjust_cast, if_pos le_rfl]
        rfl
      · exact (ringAdjust_cast 0 _).trans (by rw [if_neg (by omega), if_neg (by omega)])
    · have hring := ringAt_second_lap hc (by omega)
      rw [hat.eq (by omega), hring, ringAdjust_cast, if_neg (by omega), if_neg (by omega)]

/-- Where message `d` is old and does not look new, the pass finds nothing. -/
theorem ringAdjust_old {consumer : Int} {n c d : Nat} (hat : AtOffset c consumer) (hdc : d ≤ c) (hc : c ≤ n)
    (htotal : 3 * (n - intMaxRing) ≤ intMaxRing) (hlooks : ¬ LooksNew c d) :
    (ringAdjust consumer (ringAt d)).1 = consumer ∧ (ringAdjust consumer (ringAt d)).2 ≤ consumer := by
  have hR : intMaxRing = 2147480000 := rfl
  unfold LooksNew at hlooks
  rcases Nat.lt_or_ge c intMaxRing with hlt | hge
  · have hring := ringAt_of_le hlt.le
    rw [hat.eq (by omega), hring, ringAdjust_cast, ringAt_of_le (by omega), if_neg (by omega), if_neg (by omega)]
    exact ⟨rfl, by simpa using hdc⟩
  · have hring := ringAt_second_lap (n := c) (by omega) (by omega)
    rw [hat.eq (by omega), hring, ringAdjust_cast, if_neg (by omega), if_neg (by omega)]
    refine ⟨rfl, ?_⟩
    rcases Nat.lt_or_ge intMaxRing d with hw | hw
    · rw [ringAt_second_lap hw (by omega)]
      simp only [Nat.cast_le]
      omega
    · rw [ringAt_of_le hw]
      simp only [Nat.cast_le]
      omega

section

variable {L : Libs} {published : List Bytes} {s : Pass} {c d : Nat}

theorem TopicHolds.counter {st : TopicKey} (h : TopicHolds published st) :
    TopicHolds published ⟨some (currentOffset st), st.zset⟩ :=
  ⟨h.offset, h.total, h.member⟩

/-- One page behind message `c`. -/
theorem TopicHolds.expireProcess_page (h : TopicHolds published s.key) {now : Int} (newoffset : Int) (fuel : Nat)
    {b l : Nat} (hcl : c < l)
    (hl : l ≤ published.length) (hb : b ≤ c) (hlap : ∀ p, c + p ≤ l → OneLap published.length c p b)
    (hnear : published.length ≤ c + subMaxRange.toNat) (hq : ∀ m ∈ published, Qos0 L m)
    (hf : ∀ m ∈ published, Fresh L now m) :
    ∃ p key consumer, 0 < p ∧ c + p ≤ l ∧ TopicHolds published key ∧ AtOffset (c + p) consumer ∧
      expireProcess L now newoffset (fuel + 1) ((c - b : Nat) : Int) (((l - b : Nat) : Int) - ((c - b : Nat) : Int))
        false s = ⟨key, consumer, s.sent ++ ((published.drop c).take p).map (frame L)⟩ := by
  have hR : intMaxRing = 2147480000 := rfl
  have hM : subMaxRange.toNat = 9999999 := rfl
  have htotal := h.total
  obtain ⟨p, hp, hpos, hple⟩ : ∃ p : Nat,
      (if ((l - b : Nat) : Int) - ((c - b : Nat) : Int) > subPagesize then subPagesize
        else ((l - b : Nat) : Int) - ((c - b : Nat) : Int)) = p ∧ 0 < p ∧ c + p ≤ l := by
    unfold subPagesize
    split
    · exact ⟨10, rfl, by omega, by omega⟩
    · exact ⟨l - c, by omega, by omega, by omega⟩
  have hpage := h.pageIs (hlap p hple) (by omega) hpos (by omega) hnear hq hf
  have heq := hpage.expireProcess_eq newoffset fuel (Int.natCast_nonneg _) hp
  rw [map_frame_pageOf] at heq
  refine ⟨p, _, _, hpos, hple, h.counter, ?_, heq⟩
  rcases hlap p hple with ⟨rfl, hend, -⟩ | ⟨rfl, -⟩
  · rw [AtOffset, ringAt_of_le hend]
    split <;> omega
  · rw [AtOffset, ringAt_second_lap (by omega) (by omega), if_neg (by omega)]
    omega

theorem TopicHolds.pass_new (h : TopicHolds published s.key) {now : Int} (hat : AtOffset c s.consumer) (hcd : c < d)
    (hd : d ≤ published.length) (hnear : published.length ≤ c + subMaxRange.toNat) (hq : ∀ m ∈ published, Qos0 L m)
    (hf : ∀ m ∈ published, Fresh L now m) :
    ∃ p key consumer, c + p ≤ d ∧ TopicHolds published key ∧ AtOffset (c + p) consumer ∧
      subscribePass L now (ringAt d) s = ⟨key, consumer, s.sent ++ ((published.drop c).take p).map (frame L)⟩ := by
  have hM : subMaxRange = 9999999 := rfl
  obtain ⟨b, last, hadj, hcl, hld, hb, hlap⟩ := ringAdjust_new hat hcd hd h.total hnear
  have hpos : ((last - b : Nat) : Int) > ((c - b : Nat) : Int) := by omega
  have hrange : ¬ ((last - b : Nat) : Int) > ((c - b : Nat) : Int) + subMaxRange := by omega
  obtain ⟨fuel, hfuel⟩ : ∃ fuel, (((last - b : Nat) : Int) - ((c - b : Nat) : Int) + 2).toNat = fuel + 1 :=
    ⟨_, (Nat.succ_pred_eq_of_pos (by omega)).symm⟩
  obtain ⟨p, key, consumer, -, hple, hkey, hcons, heq⟩ := TopicHolds.expireProcess_page
    (s := { s with consumer := ((c - b : Nat) : Int) }) h (last - b : Nat) fuel hcl (by omega) hb hlap hnear hq hf
  refine ⟨p, key, consumer, by omega, hkey, hcons, ?_⟩
  simp only [subscribePass, hadj, if_pos hpos, if_neg hrange, hfuel]
  exact heq

theorem pass_old (now : Int) (hat : AtOffset c s.consumer) (hdc : d ≤ c) (hc : c ≤ published.length)
    (htotal : 3 * (published.length - intMaxRing) ≤ intMaxRing) (hlooks : ¬ LooksNew c d) :
    subscribePass L now (ringAt d) s = s := by
  obtain ⟨h1, h2⟩ := ringAdjust_old hat hdc hc htotal hlooks
  simp only [subscribePass, h1, if_neg h2.not_gt]

end

/-! ## Runs -/

/-- What is written is a contiguous segment of what is published, right behind message `c₀`. -/
def InOrder (L : Libs) (c₀ : Nat) (s : Subscription) : Prop := s.written <+: (s.published.drop c₀).map (frame L)

structure SubscriptionInv (L : Libs) (c₀ : Nat) (s : Subscription) : Prop where
  holds : TopicHolds s.published s.key
  qos0 : ∀ m ∈ s.published, Qos0 L m
  notified : s.notified ≤ s.published.length
  consumer : AtOffset (s.place c₀) s.consumer
  inOrder : InOrder L c₀ s

theorem SubscriptionInv.start (L : Libs) (c₀ : Nat) : SubscriptionInv L c₀ (.start c₀) :=
  ⟨TopicHolds.empty, by simp [Subscription.start], le_rfl, Or.inl rfl, List.nil_prefix⟩

section

variable {L : Libs} {c₀ : Nat} {s : Subscription}

theorem SubscriptionInv.publish (h : SubscriptionInv L c₀ s) (data : Bytes) (index : Nat)
    (hdom : InDomain L c₀ s (.publish data index)) : SubscriptionInv L c₀ (subscriptionStep L s (.publish data index)) := by
  obtain ⟨hnew, hq, htotal⟩ := hdom
  refine ⟨h.holds.publish data index hnew htotal, ?_, ?_, h.consumer, ?_⟩
  · intro m hm
    rcases List.mem_append.1 hm with hm | hm
    · exact h.qos0 m hm
    · rw [List.mem_singleton.1 hm]
      exact hq
  · exact h.notified.trans (by simp [subscriptionStep])
  · exact h.inOrder.trans (List.IsPrefix.map (frame L) (List.IsPrefix.drop (List.prefix_append _ _) c₀))

theorem InOrder.append (h : InOrder L c₀ s) (p : Nat) :
    s.written ++ ((s.published.drop (s.place c₀)).take p).map (frame L) <+: (s.published.drop c₀).map (frame L) := by
  have hw := List.prefix_iff_eq_take.1 h
  have hrest : (s.published.drop (s.place c₀)).map (frame L) =
      ((s.published.drop c₀).map (frame L)).drop s.written.length := by
    rw [← List.map_drop, List.drop_drop, Subscription.place]
  rw [List.map_take, hrest]
  nth_rewrite 1 [hw]
  rw [← List.take_add]
  exact List.take_prefix _ _

theorem SubscriptionInv.pass (h : SubscriptionInv L c₀ s) (now : Int) (hdom : InDomain L c₀ s (.pass now))
    (hold : OldLooksOld c₀ s (.pass now)) : SubscriptionInv L c₀ (subscriptionStep L s (.pass now)) := by
  obtain ⟨-, hc₀, hnear, hf⟩ := hdom
  by_cases hzero : s.notified = 0
  · rw [subscriptionStep, if_pos hzero]
    exact h
  have hplace : s.place c₀ ≤ s.published.length := by
    have := h.inOrder.length_le
    rw [List.length_map, List.length_drop] at this
    rw [Subscription.place]
    omega
  rw [subscriptionStep, if_neg hzero]
  rcases Nat.lt_or_ge (s.place c₀) s.notified with hlt | hge
  · obtain ⟨p, key, consumer, hp, hkey, hcons, heq⟩ := TopicHolds.pass_new (s := ⟨s.key, s.consumer, []⟩)
      h.holds h.consumer hlt h.notified hnear h.qos0 hf
    rw [heq, List.nil_append]
    refine ⟨hkey, h.qos0, h.notified, ?_, h.inOrder.append p⟩
    have hlen : (((s.published.drop (s.place c₀)).take p).map (frame L)).length = p := by
      have := h.notified
      rw [List.length_map, List.length_take, List.length_drop]
      omega
    rw [Subscription.place, List.length_append, hlen, ← Nat.add_assoc]
    exact hcons
  · have hsame := pass_old (L := L) (s := ⟨s.key, s.consumer, []⟩) now h.consumer hge hplace h.holds.total
      (hold (Nat.pos_of_ne_zero hzero) hge)
    simp only [hsame, List.append_nil]
    exact h

theorem SubscriptionInv.step (c : SubscriptionStep) (h : SubscriptionInv L c₀ s) (hdom : InDomain L c₀ s c)
    (hold : OldLooksOld c₀ s c) : SubscriptionInv L c₀ (subscriptionStep L s c) := by
  cases c with
  | publish data index => exact h.publish data index hdom
  | notify k => exact ⟨h.holds, h.qos0, hdom.2, h.consumer, h.inOrder⟩
  | pass now => exact h.pass now hdom hold

end

/-- **Delivery is gap-free, duplicate-free and ordered** in every run in which no pass takes an
offset it has passed for a new one, also across the wrap. -/
theorem delivered_in_order (L : Libs) (c₀ : Nat) (cs : List SubscriptionStep)
    (h : Always (subscriptionStep L) (fun s c => InDomain L c₀ s c ∧ OldLooksOld c₀ s c) (.start c₀) cs) :
    InOrder L c₀ (run (subscriptionStep L) (.start c₀) cs) :=
  (run_inv (I := SubscriptionInv L c₀) (subscriptionStep L) (fun _ c hs hc => hs.step c hc.1 hc.2)
    (SubscriptionInv.start L c₀) h).inOrder

/-! ### One message again and again -/

def beLibs : Libs :=
  let read : Bytes → Int := fun b => (b.take 8).foldl (fun v d => v * 256 + d.toNat) 0
  ⟨read, read⟩

/-- A message for topic `a` without a time to live; the last four bytes are the offset. -/
def sample (b0 b1 b2 b3 : UInt8) : Bytes :=
  [0x30, 21, 0, 1, 0, 0, 0, 0, 0, 0, 0, 0, 0, 0, 0, 0, 0, 1, 0x61, b0, b1, b2, b3]

section

variable (now : Int) (b0 b1 b2 b3 : UInt8)

theorem messageWrite_sample : messageWrite typePublish 0 [0, 1, 0x61, b0, b1, b2, b3] =
    some [0x30, 7, 0, 1, 0x61, b0, b1, b2, b3] := by
  have hflags : (typePublish <<< 4 ||| ((0 : UInt8) &&& 0x03) <<< 1) = 0x30 := by decide
  have hlen : encodeRemaining 5 7 = [7] := by decide
  rw [messageWrite, if_neg (by simp [maxPayloadLength]), hflags]
  simp [hlen]

theorem processQueue_sample : processQueue beLibs now (sample b0 b1 b2 b3) =
    .ok ⟨some [0x30, 7, 0, 1, 0x61, b0, b1, b2, b3], none, false⟩ := by
  have hrem : luaRemaining [21, 0, 1, 0, 0, 0, 0, 0, 0, 0, 0, 0, 0, 0, 0, 0, 1, 0x61, b0, b1, b2, b3] 1 0 2 =
      some (21, 2) := rfl
  have htype : (0x30 : UInt8) >>> 4 = typePublish := by decide
  have hqos : ((0x30 : UInt8) &&& 0x06) >>> 1 = 0 := by decide
  have hread : beLibs.readUint64 [0, 0, 0, 0, 0, 0, 0, 0, 0, 0, 0, 0, 0, 1, 0x61, b0, b1, b2, b3] = 0 := rfl
  simp [sample, processQueue, hrem, htype, hqos, hread, Diversion.decodeUtf8, bind, Except.bind, messageWrite_sample]

theorem sample_qos0 : Qos0 beLibs (sample b0 b1 b2 b3) := by
  simp only [Qos0, frame, processQueue_sample]

theorem sample_fresh : Fresh beLibs now (sample b0 b1 b2 b3) := by
  have hkeep : redisKeeps beLibs now (sample b0 b1 b2 b3) = some true := rfl
  refine ⟨by simp [hkeep], fun q hq => ?_⟩
  rw [processQueue_sample] at hq
  rw [← Except.ok.inj hq]

end

/-- The message with offset `o`. -/
def sampleAt (o : Nat) : Bytes := zaddPayload (sample 0 0 0 0) (19 : Nat) o

theorem sampleAt_eq (o : Nat) : sampleAt o = sample (UInt8.ofNat (o >>> 24 &&& 0xff)) (UInt8.ofNat (o >>> 16 &&& 0xff))
    (UInt8.ofNat (o >>> 8 &&& 0xff)) (UInt8.ofNat (o &&& 0xff)) := rfl

theorem ofNat_and_inj {a b : Nat} (h : UInt8.ofNat (a &&& 0xff) = UInt8.ofNat (b &&& 0xff)) : a % 256 = b % 256 := by
  have ht := congrArg UInt8.toNat h
  rw [show (0xff : Nat) = 2 ^ 8 - 1 from rfl, Nat.and_two_pow_sub_one_eq_mod, Nat.and_two_pow_sub_one_eq_mod] at ht
  simpa using ht

theorem sampleAt_inj {a b : Nat} (ha : a ≤ intMaxRing) (hb : b ≤ intMaxRing) (h : sampleAt a = sampleAt b) : a = b := by
  have hR : intMaxRing = 2147480000 := rfl
  rw [sampleAt_eq, sampleAt_eq] at h
  simp only [sample, List.cons.injEq, and_true, true_and] at h
  obtain ⟨h0, h1, h2, h3⟩ := h
  have h0 := ofNat_and_inj h0
  have h1 := ofNat_and_inj h1
  have h2 := ofNat_and_inj h2
  have h3 := ofNat_and_inj h3
  simp only [Nat.shiftRight_eq_div_pow] at h0 h1 h2
  omega

def samples (k : Nat) : List SubscriptionStep := List.replicate k (.publish (sample 0 0 0 0) 19)

theorem samples_succ (k : Nat) : samples (k + 1) = samples k ++ [.publish (sample 0 0 0 0) 19] :=
  List.replicate_succ'

/-- `k` of the messages are published, as the domain has it. -/
theorem run_samples (c₀ : Nat) {k : Nat} (hk : k ≤ intMaxRing) :
    Always (subscriptionStep beLibs) (fun s c => InDomain beLibs c₀ s c ∧ OldLooksOld c₀ s c) (.start c₀) (samples k) ∧
      ∃ key, run (subscriptionStep beLibs) (.start c₀) (samples k) =
        ⟨key, (List.range k).map fun i => sampleAt (i + 1), 0, ringAt c₀, []⟩ ∧
          TopicHolds ((List.range k).map fun i => sampleAt (i + 1)) key := by
  induction k with
  | zero => exact ⟨trivial, .empty, rfl, TopicHolds.empty⟩
  | succ k ih =>
    obtain ⟨halways, key, hrun, hkey⟩ := ih (by omega)
    have hoff : (mqttZadd key (sample 0 0 0 0) (19 : Nat)).2 = k + 1 := by
      rw [mqttZadd_snd, hkey.offset, ← ringAt_succ, List.length_map, List.length_range, ringAt_of_le hk]
    have hnew : sampleAt (k + 1) ∉ (List.range k).map fun i => sampleAt (i + 1) := by
      intro hm
      obtain ⟨i, hi, he⟩ := List.mem_map.1 hm
      have := sampleAt_inj (by have := List.mem_range.1 hi; omega) hk he
      have := List.mem_range.1 hi
      omega
    have htotal : 3 * (k + 1 - intMaxRing) ≤ intMaxRing := by omega
    have hdom : InDomain beLibs c₀ ⟨key, (List.range k).map fun i => sampleAt (i + 1), 0, ringAt c₀, []⟩
        (.publish (sample 0 0 0 0) 19) := by
      refine ⟨?_, ?_, by simpa using htotal⟩
      · simp only [hoff]
        exact hnew
      · exact sample_qos0 _ _ _ _
    have hlist : ((List.range (k + 1)).map fun i => sampleAt (i + 1)) =
        ((List.range k).map fun i => sampleAt (i + 1)) ++ [sampleAt (k + 1)] := by
      rw [List.range_succ, List.map_append]
      rfl
    have hpub := hkey.publish _ 19 hdom.1 (by simpa using htotal)
    rw [hoff] at hpub
    rw [samples_succ, always_concat, run_concat, hrun, hlist]
    refine ⟨⟨halways, hdom, trivial⟩, _, ?_, hpub⟩
    simp only [subscriptionStep, hoff]
    rfl

/-- Then the last offset gets into the dictionary, and the subscriber makes a pass. -/
theorem samples_pass_inDomain {c₀ k : Nat} (hpos : 0 < c₀) (hc : c₀ ≤ k) (hnear : k ≤ c₀ + subMaxRange.toNat)
    (key : TopicKey) (consumer : Int) :
    let s : Subscription := ⟨key, (List.range k).map fun i => sampleAt (i + 1), 0, consumer, []⟩
    InDomain beLibs c₀ s (.notify k) ∧ InDomain beLibs c₀ (subscriptionStep beLibs s (.notify k)) (.pass 0) := by
  have hlen : ((List.range k).map fun i => sampleAt (i + 1)).length = k := by simp
  refine ⟨⟨Nat.zero_le _, hlen.ge⟩, hpos, hc.trans hlen.ge, hlen.le.trans hnear, fun m hm => ?_⟩
  obtain ⟨i, -, rfl⟩ := List.mem_map.1 hm
  exact sample_fresh _ _ _ _ _

/-- Two messages; the subscriber has the first one and gets the second. -/
theorem delivered_in_order_second :
    InOrder beLibs 1 (run (subscriptionStep beLibs) (.start 1) (samples 2 ++ [.notify 2, .pass 0])) := by
  obtain ⟨halways, key, hrun, -⟩ := run_samples 1 (k := 2) (by decide)
  refine delivered_in_order beLibs 1 _ ((always_append _).2 ⟨halways, ?_⟩)
  rw [hrun]
  obtain ⟨hnotify, hpass⟩ := samples_pass_inDomain Nat.one_pos (Nat.le_succ 1) (by decide) key (ringAt 1)
  refine ⟨⟨hnotify, trivial⟩, ⟨hpass, fun _ hle => ?_⟩, trivial⟩
  change 2 ≤ 1 at hle
  omega

/-- At the end of the ring the consumer offset becomes 0, and the same offset looks new: the
pass begins `subMaxRange` messages back. -/
theorem TopicHolds.pass_ring_end {L : Libs} {now : Int} {published : List Bytes} {s : Pass} (h : TopicHolds published s.key)
    (hlen : published.length = intMaxRing) (hcons : s.consumer = intMaxRing) (hq : ∀ m ∈ published, Qos0 L m)
    (hf : ∀ m ∈ published, Fresh L now m) :
    s.sent.length < (subscribePass L now intMaxRing s).sent.length := by
  have hR : intMaxRing = 2147480000 := rfl
  have hM : subMaxRange = 9999999 := rfl
  obtain ⟨p, key, consumer, hpos, hp, -, -, heq⟩ := TopicHolds.expireProcess_page (c := 2137480001) (b := 0)
    (s := { s with consumer := 0 }) h intMaxRing 10000000 (l := intMaxRing) (by decide) hlen.ge (Nat.zero_le _)
    (fun p hp => Or.inl ⟨rfl, hp, fun hw => absurd hw (by omega)⟩) (by omega) hq hf
  have hadj : ringAdjust s.consumer intMaxRing = (0, (intMaxRing : Int)) := by
    rw [hcons, ringAdjust_cast, if_pos le_rfl]
  have hpass : subscribePass L now intMaxRing s =
      expireProcess L now intMaxRing (10000000 + 1) ((2137480001 - 0 : Nat) : Int)
        (((intMaxRing - 0 : Nat) : Int) - ((2137480001 - 0 : Nat) : Int)) false { s with consumer := 0 } := by
    simp only [subscribePass, hadj]
    rfl
  rw [hpass, heq]
  change s.sent.length < (s.sent ++ _).length
  rw [List.length_append, List.length_map, List.length_take, List.length_drop]
  omega

/-- A full lap of messages to a subscriber that has the last one: the pass writes older ones
again. -/
theorem end_of_ring_writes_again :
    ¬ ∀ (L : Libs) (c₀ : Nat) (cs : List SubscriptionStep), Always (subscriptionStep L) (InDomain L c₀) (.start c₀) cs →
      InOrder L c₀ (run (subscriptionStep L) (.start c₀) cs) := by
  intro h
  obtain ⟨k, hk⟩ : ∃ k, k = intMaxRing := ⟨_, rfl⟩
  have hpos : 0 < k := by rw [hk]; decide
  obtain ⟨halways, key, hrun, hkey⟩ := run_samples k hk.le
  obtain ⟨hnotify, hpass⟩ := samples_pass_inDomain hpos le_rfl (Nat.le_add_right _ _) key (ringAt k)
  have hlen : ((List.range k).map fun i => sampleAt (i + 1)).length = k := by simp
  have hqos0 : ∀ m ∈ (List.range k).map fun i => sampleAt (i + 1), Qos0 beLibs m := by
    intro m hm
    obtain ⟨i, -, rfl⟩ := List.mem_map.1 hm
    exact sample_qos0 _ _ _ _
  have hbad := h beLibs k (samples k ++ [.notify k, .pass 0]) ((always_append _).2
    ⟨halways.imp _ fun _ _ hc => hc.1, by rw [hrun]; exact ⟨hnotify, hpass, trivial⟩⟩)
  have hagain := TopicHolds.pass_ring_end (s := ⟨key, ringAt k, []⟩) hkey (hlen.trans hk)
    (by rw [ringAt_of_le hk.le, hk]) hqos0 hpass.2.2.2
  rw [run_append, hrun, run_cons, run_cons, run_nil, subscriptionStep, subscriptionStep, if_neg hpos.ne', InOrder,
    List.drop_eq_nil_of_le hlen.le, ringAt_of_le hk.le, hk] at hbad
  rw [ringAt_of_le hk.le, hk] at hagain
  simp only [List.nil_append, List.map_nil, List.prefix_nil] at hbad
  rw [hbad] at hagain
  exact absurd hagain (lt_irrefl _)

end NgxPlus.Mqtt
