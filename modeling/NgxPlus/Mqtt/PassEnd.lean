import NgxPlus.Mqtt.QosDelivery

/-!
# Where a pass over a topic ends

Any subscription, with QoS or without, and any beginning. A range is read to its end at least,
whatever is expired in it (`zrangeLoop_end`); a page that sends no message with QoS ends there
(`processSubscribeFor_end`). A pass that one page is enough for ends at what was notified, unless it
sent a message with QoS (`passFor_end`). It leaves the entries of the outstanding dictionary where
they are.
-/

namespace NgxPlus.Mqtt

open ByteMem
open NgxPlus.Diversion (LuaError)

/-! ## A range -/

section

variable {L : Libs} {zset : SortedSet Nat Bytes} {n : Nat} {now min pagesize : Int}

theorem clampMax_low (hring : ¬ (n : ℚ) > intMaxRing2) {max : Int} (hmax : max < n + subMaxRange) : clampMax n max = max := by
  have hlow : ¬ (((n : Int) : ℚ) < intMaxRing1 ∧ (max : ℚ) > intMaxRing2) := by
    rintro ⟨h1, h2⟩
    rw [Int.cast_natCast, cast_lt_ring1] at h1
    rw [gt_iff_lt, intMaxRing2_eq, div_lt_iff₀ (by norm_num)] at h2
    have h3 : (4294960000 : Int) < max * 3 := by exact_mod_cast h2
    simp only [subMaxRange] at hmax
    omega
  rw [clampMax, if_neg hlow, Int.cast_natCast, if_neg hring]

/-- Where a page is looked for: behind the oldest members that may be read. -/
theorem pageWindow (hlimit : pagesize ≤ subMaxRange) (hmin : min ≤ n) :
    ∃ low high, (if subMaxRange > 1 ∧ (n : Int) - min > subMaxRange then (n - subMaxRange, n - subMaxRange + pagesize)
      else (min, pagesize + min - 1)) = (low, high) ∧ min ≤ low ∧ low + pagesize - 1 ≤ high ∧
      high ≤ low + pagesize ∧ high < n + subMaxRange := by
  have hpos : 0 < subMaxRange := by simp only [subMaxRange]; omega
  split
  · exact ⟨_, _, rfl, by omega, by omega, by omega, by omega⟩
  · exact ⟨_, _, rfl, le_rfl, by omega, by omega, by omega⟩

/-- The members of a page have scores of their own: the last one's is as far as they are many. -/
theorem exists_last_of_page (hone : zset.OnePerScore) {low high : Int} {t : List (Nat × Bytes)}
    (ht : (zset.rangeByScore fun score => decide (low ≤ score) && decide ((score : Int) ≤ high)) = t) (hne : t ≠ []) :
    ∃ e, t.getLast? = some e ∧ e ∈ zset.entries ∧ low ≤ e.1 ∧ (e.1 : Int) ≤ high ∧
      t.length ≤ ((e.1 : Int) - (low - 1)).toNat := by
  have hmem : ∀ e ∈ t, e ∈ zset.entries ∧ low ≤ e.1 ∧ (e.1 : Int) ≤ high := by
    intro e he
    rw [← ht, SortedSet.mem_rangeByScore, Bool.and_eq_true, decide_eq_true_eq, decide_eq_true_eq] at he
    exact he
  obtain ⟨e, he⟩ : ∃ e, t.getLast? = some e := ⟨t.getLast hne, List.getLast?_eq_some_getLast hne⟩
  obtain ⟨hemem, hlast⟩ := SortedSet.getLast?_rangeByScore (ht.symm ▸ he)
  rw [ht] at hemem hlast
  obtain ⟨hez, hel, heh⟩ := hmem e hemem
  refine ⟨e, he, hez, hel, heh, ?_⟩
  rw [← ht]
  refine hone.length_rangeByScore_le_of_mem fun a ha => ?_
  rw [ht] at ha
  have hle : a.1 ≤ e.1 := hlast a ha
  have := (hmem a ha).2.1
  omega

/-- A page of no size ends the loop. -/
theorem zrangeLoop_noSize (hring : ¬ (n : ℚ) > intMaxRing2) (fuel : Nat) (hmin : min ≤ n + subMaxRange) :
    zrangeLoop L now subMaxRange zset n (fuel + 1) min 0 = .err (min - 1) := by
  rw [zrangeLoop, if_neg (by simp only [subMaxRange]; omega), clampMax_low hring (by omega), Int.zero_add]
  exact if_pos (by omega)

/-- Below the last third of the ring a range is read to its end at least. The induction is on the
members that are left. -/
theorem zrangeLoop_end (hL : ∀ b, 8 ≤ b.length → L.redisReadInt64 b = int64Be b) (hring : ¬ (n : ℚ) > intMaxRing2)
    (hone : zset.OnePerScore) (hmsg : ∀ e ∈ zset.entries, PublishMessage e.2) {fuel : Nat} (hsize : 1 ≤ pagesize)
    (hlimit : pagesize ≤ subMaxRange) (hmin : min ≤ n)
    (hfuel : (zset.rangeByScore fun score => decide (min - 1 < score)).length < fuel) :
    ∃ t max, zrangeLoop L now subMaxRange zset n fuel min pagesize = .vals t max ∧ min + pagesize - 1 ≤ max ∧
      max < n + subMaxRange ∧ ∀ e ∈ t, e ∈ zset.entries := by
  induction fuel generalizing min pagesize with
  | zero => exact absurd hfuel (Nat.not_lt_zero _)
  | succ fuel ih =>
    have hclamp : clampMax n (pagesize + min - 1) = pagesize + min - 1 := clampMax_low hring (by omega)
    rw [zrangeLoop]
    simp only [if_neg (not_lt.2 hlimit), hclamp, if_neg (show ¬ min > pagesize + min - 1 by omega)]
    obtain ⟨low, high, hpage, hlow, hshort, hwide, hbound⟩ := pageWindow hlimit hmin
    simp only [hpage]
    generalize ht : (zset.rangeByScore fun score => decide (low ≤ score) && decide ((score : Int) ≤ high)) = t
    have hmem : ∀ e ∈ t, e ∈ zset.entries ∧ low ≤ e.1 ∧ (e.1 : Int) ≤ high := by
      intro e he
      rw [← ht, SortedSet.mem_rangeByScore, Bool.and_eq_true, decide_eq_true_eq, decide_eq_true_eq] at he
      exact he
    have hkept : t.filterM (fun e => redisKeeps L now e.2) = some (t.filter fun e => !decide (Expired now e.2)) :=
      filterM_eq_filter fun e he => redisKeeps_message hL now (hmsg e (hmem e he).1)
    simp only [hkept]
    generalize hkeep : (t.filter fun e => !decide (Expired now e.2)) = kept
    have hin : ∀ e ∈ kept, e ∈ zset.entries := fun e he => (hmem e (List.mem_of_mem_filter (hkeep ▸ he))).1
    by_cases hless : kept.length < t.length
    · rw [if_pos hless]
      by_cases hend : high ≥ n ∨ high ≥ intMaxRing
      · rw [if_pos hend]
        exact ⟨kept, high, rfl, by omega, hbound, hin⟩
      rw [if_neg hend]
      obtain ⟨e, he, hez, hel, heh, hcount⟩ :=
        exists_last_of_page hone ht (List.ne_nil_of_length_pos (Nat.lt_of_le_of_lt (Nat.zero_le _) hless))
      simp only [he]
      have hfewer := members_left_lt hone hez rfl (show min - 1 < (e.1 : Int) by omega)
      by_cases hnone : pagesize - kept.length = 0
      · obtain ⟨fuel, rfl⟩ : ∃ f, fuel = f + 1 := ⟨fuel - 1, by omega⟩
        rw [hnone, zrangeLoop_noSize hring fuel (by omega)]
        exact ⟨kept, _, rfl, by omega, by omega, hin⟩
      · obtain ⟨t', max, hrest, hmax, hlt, hin'⟩ := @ih ((e.1 : Int) + 1) (pagesize - kept.length) (by omega) (by omega)
          (by omega) (by rw [Int.add_sub_cancel]; omega)
        rw [hrest]
        refine ⟨kept ++ t', max, rfl, by omega, hlt, fun a ha => ?_⟩
        rcases List.mem_append.1 ha with ha | ha
        · exact hin a ha
        · exact hin' a ha
    · rw [if_neg hless]
      exact ⟨kept, high, rfl, by omega, hbound, hin⟩

end

/-! ## A page -/

section

variable {L : Libs} {topic : Bytes} {min pagesize : Int} {clientId : Bytes} {sQos : Nat} {clock : PageClock}

/-- A stored message raises no error. -/
theorem StoredAt.processQueueFor_ok {offset : Nat} {m : Bytes} (h : StoredAt topic offset m) (recvTime stamp : Int)
    (clientId : Bytes) (sQos : Nat) (d : Dicts) : ∃ q, (processQueueFor L recvTime stamp clientId sQos m d).2 = .ok q := by
  obtain ⟨e, rfl, -, happ⟩ := h
  rw [e.processQueueFor_bytes]
  split
  · exact ⟨_, rfl⟩
  rw [Envelope.app] at happ
  split at happ
  · next hq =>
    have hlong : ¬ (e.rest.drop 2).length < 4 := fun hshort => by
      rw [readUint32_eq_none.2 hshort] at happ
      cases happ
    obtain ⟨b0, b1, hrest⟩ : ∃ b0 b1, e.rest = b0 :: b1 :: e.rest.drop 2 := by
      cases hr : e.rest with
      | nil => exact absurd (by rw [hr]; simp) hlong
      | cons b0 bs =>
        cases bs with
        | nil => exact absurd (by rw [hr]; simp) hlong
        | cons b1 bs => exact ⟨b0, b1, rfl⟩
    have hopened : (e.opened L).rest = b0 :: b1 :: e.rest.drop 2 := hrest
    rw [if_pos hq, sendQos_snd hopened, if_neg hlong]
    exact ⟨_, rfl⟩
  · next hq =>
    rw [if_neg hq, happ]
    exact ⟨_, rfl⟩

/-- Stored messages are sent to the last, or up to one with QoS. -/
theorem sendValsFor_end (maxoffset : Int) {t : List (Nat × Bytes)} (ht : ∀ e ∈ t, StoredAt topic e.1 e.2)
    (n : Nat) (consumerOffset : Int) (existedExpire : Bool) (d : Dicts) :
    let r := (sendValsFor L clock clientId sQos maxoffset n t consumerOffset existedExpire d).2
    (r.offset = some maxoffset ∧ r.cMsgId = none) ∨ ∃ o cMsgId, r.offset = some o ∧ r.cMsgId = some cMsgId := by
  induction t generalizing n consumerOffset existedExpire d with
  | nil => exact Or.inl ⟨rfl, rfl⟩
  | cons e t ih =>
    obtain ⟨q, hq⟩ := (ht e List.mem_cons_self).processQueueFor_ok (L := L) (clock.recvTime n) (clock.stamp n) clientId sQos d
    rw [sendValsFor, ← Prod.mk.eta (p := processQueueFor L (clock.recvTime n) (clock.stamp n) clientId sQos e.2 d), hq]
    simp only
    cases q.cMsgId with
    | some cMsgId => exact Or.inr ⟨_, _, rfl, rfl⟩
    | none => exact ih (fun a ha => ht a (List.mem_cons_of_mem _ ha)) _ _ _ _

/-- The script leaves the messages as they are, and keeps the counter. -/
theorem TopicOk.mqttZrangebyscore {st : TopicKey} (h : TopicOk topic st) (now maxlimit min pagesize : Int) :
    TopicOk topic (mqttZrangebyscore L st now maxlimit min pagesize).1 ∧
      currentOffset (mqttZrangebyscore L st now maxlimit min pagesize).1 = currentOffset st := by
  rw [NgxPlus.Mqtt.mqttZrangebyscore]
  split
  · exact ⟨h, rfl⟩
  · have hsame : currentOffset ⟨some (currentOffset st), st.zset⟩ = currentOffset st := currentOffset_of_counter rfl
    refine ⟨⟨fun _ => by rw [hsame], ?_, h.onePerScore, fun e he => ?_, h.stored⟩, hsame⟩
    · rw [hsame]
      exact h.ring
    · rw [hsame]
      exact h.scores e he

theorem TopicOk.processSubscribeFor {st : TopicKey} (h : TopicOk topic st) (d : Dicts) (min pagesize : Int) :
    TopicOk topic (processSubscribeFor L clock clientId sQos st d min pagesize).1 ∧
      currentOffset (processSubscribeFor L clock clientId sQos st d min pagesize).1 = currentOffset st := by
  have hkey := h.mqttZrangebyscore (L := L) clock.script subMaxRange min pagesize
  rw [NgxPlus.Mqtt.processSubscribeFor]
  generalize NgxPlus.Mqtt.mqttZrangebyscore L st clock.script subMaxRange min pagesize = r at hkey
  obtain ⟨st', reply⟩ := r
  cases reply with
  | vals t max => exact hkey
  | err max => exact hkey
  | raised => exact hkey

/-- A page ends behind its last offset, or with a message that was sent with QoS. -/
theorem processSubscribeFor_end (hL : ReadsBigEndian L) {st : TopicKey} (h : TopicOk topic st) (hsize : 1 ≤ pagesize)
    (hlimit : pagesize ≤ subMaxRange) (hmin : min ≤ currentOffset st) (d : Dicts) :
    let r := (processSubscribeFor L clock clientId sQos st d min pagesize).2.2
    (∃ max, r.offset = some max ∧ r.cMsgId = none ∧ min + pagesize - 1 ≤ max ∧ max < intMaxRing) ∨
      ∃ o cMsgId, r.offset = some o ∧ r.cMsgId = some cMsgId := by
  have hfuel : (st.zset.rangeByScore fun score => decide (min - 1 < score)).length < st.zset.entries.length + 1 :=
    Nat.lt_succ_of_le (List.length_filter_le _ _)
  obtain ⟨t, max, hloop, hle, hlt, hmem⟩ := @zrangeLoop_end L st.zset (currentOffset st) clock.script min pagesize hL.redis
    (not_lt.2 h.ring) h.onePerScore (fun e he => (h.stored e he).publishMessage) _ hsize hlimit hmin hfuel
  have hread : NgxPlus.Mqtt.mqttZrangebyscore L st clock.script subMaxRange min pagesize =
      (⟨some (currentOffset st), st.zset⟩, .vals t max) := by
    rw [NgxPlus.Mqtt.mqttZrangebyscore, if_neg (not_lt.2 hlimit)]
    simp only [hloop]
  have hring := h.le
  rw [processSubscribeFor, hread]
  simp only
  rcases @sendValsFor_end L topic clientId sQos clock max t
    (fun e he => h.stored e (hmem e he)) 0 (-1) false d with ⟨ho, hid⟩ | hsent
  · exact Or.inl ⟨max, ho, hid, hle, by simp only [subMaxRange, intMaxRing] at hlt ⊢; omega⟩
  · exact Or.inr hsent

/-! ## Entries that are kept -/

/-- No entry of the outstanding dictionary goes. -/
def EntriesStay (d d' : Dicts) : Prop :=
  ∀ key, (d.outstanding key).isSome = true → (d'.outstanding key).isSome = true

theorem EntriesStay.refl (d : Dicts) : EntriesStay d d := fun _ h => h

theorem EntriesStay.trans {d d' d'' : Dicts} (h : EntriesStay d d') (h' : EntriesStay d' d'') : EntriesStay d d'' :=
  fun key hkey => h' key (h key hkey)

theorem entriesStay_setOutstanding (d : Dicts) (clientId key : Bytes) (v : Outstanding) :
    EntriesStay d (d.setOutstanding clientId key (some v)) := by
  intro k hk
  by_cases h : k = outstandingKey clientId key
  · simp [Dicts.setOutstanding, h]
  · simpa [Dicts.setOutstanding, Function.update_of_ne h] using hk

theorem entriesStay_sendQos (stamp : Int) (qos : UInt8) (o : Opened) (d : Dicts) :
    EntriesStay d (sendQos stamp clientId sQos qos o d).1 := by
  rw [sendQos]
  split
  · simp only
    by_cases hs : sQos > 0
    · simp only [if_pos hs]
      split
      · exact .refl d
      · exact fun key hkey => entriesStay_setOutstanding _ _ _ _ key (entriesStay_setOutstanding _ _ _ _ key hkey)
    · simp only [if_neg hs]
      split
      · exact .refl d
      · exact .refl d
  · exact .refl d

theorem entriesStay_processQueueFor (recvTime stamp : Int) (buffer : Bytes) (d : Dicts) :
    EntriesStay d (processQueueFor L recvTime stamp clientId sQos buffer d).1 := by
  cases buffer with
  | nil => exact .refl d
  | cons flags rest =>
    rw [processQueueFor]
    simp only
    -- only a message with QoS writes to the dictionary
    repeat' split
    all_goals first
      | exact .refl d
      | exact entriesStay_sendQos _ _ _ d

theorem entriesStay_sendValsFor (maxoffset consumerOffset : Int) (n : Nat) (t : List (Nat × Bytes)) (existedExpire : Bool)
    (d : Dicts) : EntriesStay d (sendValsFor L clock clientId sQos maxoffset n t consumerOffset existedExpire d).1 := by
  induction t generalizing n consumerOffset existedExpire d with
  | nil => exact .refl d
  | cons e t ih =>
    have hfirst := @entriesStay_processQueueFor L clientId sQos (clock.recvTime n) (clock.stamp n) e.2 d
    rw [sendValsFor]
    generalize processQueueFor L (clock.recvTime n) (clock.stamp n) clientId sQos e.2 d = r at hfirst
    obtain ⟨d', r⟩ := r
    cases r with
    | error err => exact hfirst
    | ok q =>
      simp only
      cases q.cMsgId with
      | some c => exact hfirst
      | none => exact hfirst.trans (ih _ _ _ _)

theorem entriesStay_processSubscribeFor (st : TopicKey) (d : Dicts) (minoffset pagesize : Int) :
    EntriesStay d (processSubscribeFor L clock clientId sQos st d minoffset pagesize).2.1 := by
  rw [processSubscribeFor]
  split
  · exact entriesStay_sendValsFor _ _ _ _ _ _
  · exact .refl d

/-! ## A pass -/

/-- What a pass keeps: the topic, with its newest offset, and the entries of the dictionary. -/
structure PassKeeps (topic : Bytes) (q q' : QosPass) : Prop where
  topic : TopicOk topic q'.key
  current : currentOffset q'.key = currentOffset q.key
  entries : EntriesStay q.dicts q'.dicts

theorem PassKeeps.refl {q : QosPass} (h : TopicOk topic q.key) : PassKeeps topic q q := ⟨h, rfl, .refl _⟩

theorem PassKeeps.trans {q q' q'' : QosPass} (h : PassKeeps topic q q') (h' : PassKeeps topic q' q'') :
    PassKeeps topic q q'' := ⟨h'.topic, h'.current.trans h.current, h.entries.trans h'.entries⟩

/-- One page, whatever is then stored for the consumer. -/
theorem PassKeeps.page {q : QosPass} (h : TopicOk topic q.key) (minoffset pagesize consumer : Int) (sent : List Bytes)
    (ids : List (Int × Nat × Int)) (looks : List Int) :
    PassKeeps topic q ⟨(processSubscribeFor L clock clientId sQos q.key q.dicts minoffset pagesize).1,
      (processSubscribeFor L clock clientId sQos q.key q.dicts minoffset pagesize).2.1, consumer, sent, ids, looks⟩ where
  topic := (h.processSubscribeFor q.dicts minoffset pagesize).1
  current := (h.processSubscribeFor q.dicts minoffset pagesize).2
  entries := entriesStay_processSubscribeFor q.key q.dicts minoffset pagesize

theorem expireProcessFor_keeps {clocks : Nat → PageClock} {newoffset : Int} {q : QosPass} (h : TopicOk topic q.key)
    (fuel n : Nat) (oldoffset pagesize : Int) (existedExpire : Bool) :
    PassKeeps topic q (expireProcessFor L clocks clientId sQos newoffset fuel n oldoffset pagesize existedExpire q) := by
  induction fuel generalizing n oldoffset pagesize existedExpire q with
  | zero => exact .refl h
  | succ fuel ih =>
    rw [expireProcessFor]
    split
    · exact .refl h
    simp only
    generalize (if existedExpire = true then newoffset - oldoffset
      else if pagesize > subPagesize then subPagesize else pagesize) = size
    have hpage := @PassKeeps.page L topic clientId sQos (clocks n) q h (oldoffset + 1) size
    generalize processSubscribeFor L (clocks n) clientId sQos q.key q.dicts (oldoffset + 1) size = r at hpage ⊢
    obtain ⟨key, dicts, page⟩ := r
    simp only at hpage ⊢
    have hgoes : ∀ consumer sent ids looks n oldoffset, PassKeeps topic q
        (expireProcessFor L clocks clientId sQos newoffset fuel n oldoffset size true
          ⟨key, dicts, consumer, sent, ids, looks⟩) :=
      fun consumer sent ids looks n oldoffset =>
        (hpage consumer sent ids looks).trans (ih (hpage consumer sent ids looks).topic _ _ _ _)
    cases page.offset with
    | none => exact hpage _ _ _ _
    | some consumerOffset =>
      cases page.cMsgId with
      | none =>
        simp only
        split
        · exact hpage _ _ _ _
        · generalize (if consumerOffset ≥ intMaxRing then 0 else consumerOffset) = c
          split
          · exact hpage _ _ _ _
          · split
            · exact hgoes _ _ _ _ _ _
            · exact hpage _ _ _ _
      | some cMsgId =>
        simp only
        split
        · exact hgoes _ _ _ _ _ _
        · exact hpage _ _ _ _

/-- A pass that one page is enough for. -/
theorem expireProcessFor_end {clocks : Nat → PageClock} (hL : ReadsBigEndian L) {newoffset old : Int} {q : QosPass}
    (h : TopicOk topic q.key)
    (hnonneg : 0 ≤ newoffset) (hlt : old < newoffset) (hone : newoffset ≤ old + subPagesize)
    (hnew : newoffset ≤ currentOffset q.key) (fuel : Nat) :
    let r := expireProcessFor L clocks clientId sQos newoffset (fuel + 2) 0 old (newoffset - old) false q
    newoffset ≤ r.consumer ∨ r.ids ≠ [] := by
  have hend := @processSubscribeFor_end L topic (old + 1) (newoffset - old) clientId sQos (clocks 0) hL q.key h (by omega)
    (by simp only [subPagesize] at hone; simp only [subMaxRange]; omega)
    (by omega) q.dicts
  rw [expireProcessFor]
  simp only [Bool.false_eq_true, false_and, if_false, if_neg (show ¬ newoffset - old > subPagesize by omega)]
  generalize processSubscribeFor L (clocks 0) clientId sQos q.key q.dicts (old + 1) (newoffset - old) = r at hend ⊢
  obtain ⟨key, dicts, page⟩ := r
  simp only at hend ⊢
  rcases hend with ⟨max, ho, hid, hle, hlt⟩ | ⟨o, cMsgId, ho, hid⟩
  · simp only [ho, hid, if_neg (show ¬ max = -1 by omega), if_neg (show ¬ max ≥ intMaxRing by omega),
      if_pos (show max ≥ newoffset by omega)]
    exact Or.inl (by omega)
  · -- what is behind an expired message is not read again, since the page was the whole range
    have hstop : ∀ n q', expireProcessFor L clocks clientId sQos newoffset (fuel + 1) n old (newoffset - old) true q' = q' :=
      fun n q' => by rw [expireProcessFor, if_pos ⟨rfl, rfl⟩]
    simp only [ho, hid, hstop, ite_self]
    exact Or.inr (List.append_ne_nil_of_right_ne_nil _ (List.cons_ne_nil _ _))

theorem passFor_eq {clock : PassClock} {newoffset old : Int} {q : QosPass}
    (hfrom : (if sQos > 0 then resendFrom q.dicts clientId topic clock.resend newoffset q.consumer else .ok q.consumer) = .ok old)
    (hring : (old : ℚ) ≤ intMaxRing2) :
    passFor L clock newoffset clientId topic sQos q =
      if newoffset > old then
        let old := if newoffset > old + subMaxRange then newoffset - subMaxRange else old
        expireProcessFor L clock.page clientId sQos newoffset (newoffset - old + 2).toNat 0 old (newoffset - old) false q
      else q := by
  have hlt : (old : ℚ) < intMaxRing := hring.trans_lt (by norm_num [intMaxRing2, intMaxRing1, intMaxRing])
  have hend : ¬ old ≥ intMaxRing := by
    rw [not_le]
    exact_mod_cast hlt
  have hadjust : ringAdjust old newoffset = (old, newoffset) := by
    rw [ringAdjust, if_neg hend, if_neg fun hx => not_lt.2 hring hx.1]
  rw [passFor, hfrom]
  simp only [if_neg hend, hadjust]

theorem passFor_keeps {clock : PassClock} {newoffset : Int} {q : QosPass} (h : TopicOk topic q.key) :
    PassKeeps topic q (passFor L clock newoffset clientId topic sQos q) := by
  rw [passFor]
  split
  · exact .refl h
  · next old _ =>
    have hsame : ∀ consumer, PassKeeps topic q { q with consumer := consumer } := fun _ => ⟨h, rfl, .refl _⟩
    simp only
    generalize hq : (if old ≥ intMaxRing then { q with consumer := 0 } else q) = q'
    have hkeeps : PassKeeps topic q q' := by
      rw [← hq]
      split
      · exact hsame 0
      · exact .refl h
    split
    · exact hkeeps.trans (expireProcessFor_keeps hkeeps.topic _ _ _ _ _)
    · exact hkeeps

/-- **Where a pass ends** that one page is enough for: at what was notified, or with a message that was
sent with QoS. -/
theorem passFor_end {clock : PassClock} (hL : ReadsBigEndian L) {newoffset old : Int} {q : QosPass}
    (h : TopicOk topic q.key)
    (hfrom : (if sQos > 0 then resendFrom q.dicts clientId topic clock.resend newoffset q.consumer else .ok q.consumer) = .ok old)
    (hring : (old : ℚ) ≤ intMaxRing2) (hnonneg : 0 ≤ newoffset) (hone : newoffset ≤ old + subPagesize)
    (hnew : newoffset ≤ currentOffset q.key) :
    let r := passFor L clock newoffset clientId topic sQos q
    (newoffset ≤ old ∧ r.consumer = q.consumer) ∨ newoffset ≤ r.consumer ∨ r.ids ≠ [] := by
  rw [passFor_eq hfrom hring]
  by_cases hlt : old < newoffset
  · obtain ⟨fuel, hfuel⟩ : ∃ fuel, (newoffset - old + 2).toNat = fuel + 2 := ⟨(newoffset - old).toNat, by omega⟩
    have hnear : ¬ newoffset > old + subMaxRange := by
      simp only [subMaxRange, subPagesize] at hone ⊢
      omega
    simp only [if_pos (show newoffset > old from hlt), if_neg hnear, hfuel]
    exact Or.inr (expireProcessFor_end hL h hnonneg hlt hone hnew fuel)
  · rw [if_neg (show ¬ newoffset > old from hlt)]
    exact Or.inl ⟨not_lt.1 hlt, rfl⟩

end

end NgxPlus.Mqtt
