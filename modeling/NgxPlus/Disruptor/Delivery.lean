import NgxPlus.Disruptor.Ring

/-!
# The disruptor: what the consumers are given

A consumer takes the numbers `current + 1 … next` and passes one pointer, to the slot of the
first (`ngx_disruptor.c:133-137`). The slots of the others lie behind it only up to the end of
the ring: a batch that goes over the end (`Straight` fails) is read from memory behind the ring
(`batch_over_the_end`). In a run without such a batch every batch is delivered once, in a
partition of what is committed, and with the items that were published (`delivered_once`).
-/

namespace NgxPlus.Disruptor

open ByteMem Intervals

/-- The slots of the batch follow each other. -/
def Straight (c : Cfg) (b : Nat × Nat) : Prop := (b.1 + 1 &&& (c.slots - 1)) + (b.2 - b.1) ≤ c.slots

instance (c : Cfg) (b : Nat × Nat) : Decidable (Straight c b) := inferInstanceAs (Decidable (_ ≤ _))

/-- The batch that a consumer is about to take. -/
def Consumer.claims : Consumer → Option (Nat × Nat)
  | .claim current next => some (current, next)
  | _ => none

/-- No batch is taken that goes over the end of the ring. -/
def ClaimsStraight (c : Cfg) (s : State) : Action → Prop
  | .consumer i => ∀ b ∈ (s.consumers i).claims, s.rnext = b.1 → Straight c b
  | _ => True

instance (c : Cfg) (s : State) : (a : Action) → Decidable (ClaimsStraight c s a)
  | .startup _ | .next _ _ | .publish _ _ | .producer _ => isTrue trivial
  | .consumer i => inferInstanceAs (Decidable (∀ b ∈ (s.consumers i).claims, s.rnext = b.1 → Straight c b))

/-- The first `done` bytes of the item `data` are in its slot. -/
structure Stored (c : Cfg) (s : State) (n : Nat) (data : Bytes) (done : Nat) : Prop where
  item : s.items n = some data
  fits : data.length ≤ c.slotSize
  done_le : done ≤ data.length
  bytes : ∀ i < done, s.buf (slotAt c n + i) = data.getD i 0

theorem Stored.frame {c : Cfg} {s t : State} {n : Nat} {data : Bytes} {done : Nat} (h : Stored c s n data done)
    (hitems : t.items = s.items) (hbuf : t.buf = s.buf) : Stored c t n data done :=
  ⟨hitems ▸ h.item, h.fits, h.done_le, hbuf ▸ h.bytes⟩

/-- What `on_consumer(ctx, data, next - current)` finds. -/
structure CallOk (c : Cfg) (s : State) (current next : Nat) : Prop where
  inside : c.slotSize * (current + 1 &&& (c.slots - 1)) + (next - current) * c.slotSize ≤ c.slots * c.slotSize
  items : ∀ j < next - current, ∃ item, s.items (current + 1 + j) = some item ∧ item.length ≤ c.slotSize ∧
    ∀ i < item.length,
      s.buf (c.slotSize * (current + 1 &&& (c.slots - 1)) + j * c.slotSize + i) = item.getD i 0

/-! ## The invariant -/

/-- The item that a producer is writing, and how far it is. -/
def Producer.writing : Producer → Option (Nat × Bytes × Nat)
  | .copy n data done => some (n, data, done)
  | .publish n data => some (n, data, data.length)
  | _ => none

/-- The batch whose callback was entered. -/
def Consumer.called : Consumer → Option (Nat × Nat)
  | .calling current next | .commit current next | .retry current next => some (current, next)
  | _ => none

/-- The batch whose callback is next. -/
def Consumer.waiting : Consumer → Option (Nat × Nat)
  | .taken current next => some (current, next)
  | _ => none

structure DataInv (c : Cfg) (s : State) : Prop where
  writing : ∀ p n data done, (s.producers p).writing = some (n, data, done) → Stored c s n data done
  published : ∀ n, s.rcursor < n → n ≤ s.wcursor → ∃ data, Stored c s n data data.length
  delivered_nodup : s.delivered.Nodup
  delivered_claimed : ∀ b ∈ s.delivered, b ∈ s.claimed
  committed_delivered : ∀ b ∈ s.committed, b ∈ s.delivered
  called : ∀ i b, (s.consumers i).called = some b → b ∈ s.delivered
  waiting : ∀ i b, (s.consumers i).waiting = some b → b ∉ s.delivered
  straight : ∀ b ∈ s.claimed, Straight c b

theorem dataInv_init (c : Cfg) : DataInv c .init where
  writing p n data done h := by simp [State.init, Producer.writing] at h
  published n h h' := by simp [State.init] at h h'; omega
  delivered_nodup := List.nodup_nil
  delivered_claimed b h := by simp [State.init] at h
  committed_delivered b h := by simp [State.init] at h
  called i b h := by simp [State.init, Consumer.called] at h
  waiting i b h := by simp [State.init, Consumer.waiting] at h
  straight b h := by simp [State.init] at h

theorem Producer.sequence_of_writing {x : Producer} {n : Nat} {data : Bytes} {done : Nat}
    (h : x.writing = some (n, data, done)) : x.sequence = some n := by
  cases x with
  | copy m d k =>
    obtain ⟨rfl, -⟩ := Prod.mk.inj (Option.some.inj h)
    rfl
  | publish m d =>
    obtain ⟨rfl, -⟩ := Prod.mk.inj (Option.some.inj h)
    rfl
  | _ => simp [Producer.writing] at h

theorem Consumer.batch_of_waiting {x : Consumer} {b : Nat × Nat} (h : x.waiting = some b) : x.batch = some b := by
  cases x with
  | taken _ _ => exact h
  | _ => simp [Consumer.waiting] at h

section Local

variable {c : Cfg} {s : State} (d : DataInv c s)

include d

theorem DataInv.setProducer {p : Nat} {x : Producer}
    (hx : ∀ n data done, x.writing = some (n, data, done) → Stored c s n data done) :
    DataInv c (s.setProducer p x) where
  writing q n data done hq := by
    have hst : Stored c s n data done := by
      by_cases hqp : q = p
      · subst hqp
        simp only [State.setProducer, Function.update_self] at hq
        exact hx n data done hq
      · refine d.writing q n data done ?_
        simpa [State.setProducer, Function.update_of_ne hqp] using hq
    exact hst.frame rfl rfl
  published n h h' := by
    obtain ⟨data, hst⟩ := d.published n h h'
    exact ⟨data, hst.frame rfl rfl⟩
  delivered_nodup := d.delivered_nodup
  delivered_claimed := d.delivered_claimed
  committed_delivered := d.committed_delivered
  called := d.called
  waiting := d.waiting
  straight := d.straight

theorem DataInv.setConsumer {i : Nat} {x : Consumer} (hcalled : ∀ b, x.called = some b → b ∈ s.delivered)
    (hwaiting : ∀ b, x.waiting = some b → b ∉ s.delivered) : DataInv c (s.setConsumer i x) where
  writing p n data done hp := by
    exact (d.writing p n data done hp).frame rfl rfl
  published n h h' := by
    obtain ⟨data, hst⟩ := d.published n h h'
    exact ⟨data, hst.frame rfl rfl⟩
  delivered_nodup := d.delivered_nodup
  delivered_claimed := d.delivered_claimed
  committed_delivered := d.committed_delivered
  called j b hj := by
    by_cases hji : j = i
    · subst hji
      simp only [State.setConsumer, Function.update_self] at hj
      exact hcalled b hj
    · refine d.called j b ?_
      simpa [State.setConsumer, Function.update_of_ne hji] using hj
  waiting j b hj := by
    by_cases hji : j = i
    · subst hji
      simp only [State.setConsumer, Function.update_self] at hj
      exact hwaiting b hj
    · refine d.waiting j b ?_
      simpa [State.setConsumer, Function.update_of_ne hji] using hj
  straight := d.straight

end Local

/-! ## One step -/

section Step

variable {c : Cfg} {s : State} (h : Inv c s.toCore) (d : DataInv c s)

theorem slotAt_mod {k : Nat} (hk : c.slots = 2 ^ k) (n : Nat) : slotAt c n = n % c.slots * c.slotSize := by
  rw [slotAt, hk, Nat.and_two_pow_sub_one_eq_mod]

/-- A byte written for `m` does not touch the item of `n`. -/
theorem Stored.write {k : Nat} (hk : c.slots = 2 ^ k) {n m i : Nat} {data : Bytes} {done : Nat}
    (hst : Stored c s n data done) (hslot : n % c.slots ≠ m % c.slots) (hi : i < c.slotSize) (v : UInt8) :
    Stored c { s with buf := Function.update s.buf (slotAt c m + i) v } n data done := by
  refine ⟨hst.item, hst.fits, hst.done_le, fun j hj => ?_⟩
  have hj' : j < c.slotSize := lt_of_lt_of_le hj (hst.done_le.trans hst.fits)
  have hne : slotAt c n + j ≠ slotAt c m + i := by
    rw [slotAt_mod hk, slotAt_mod hk]
    exact slot_disjoint hslot hj' hi
  simp only [Function.update_of_ne hne]
  exact hst.bytes j hj

include h in
/-- Two numbers of the window have different slots. -/
theorem slot_ne {m n : Nat} (hm : s.rcursor < m) (hm' : m ≤ s.wnext) (hn : s.rcursor < n) (hn' : n ≤ s.wnext)
    (hne : m ≠ n) : m % c.slots ≠ n % c.slots := by
  have := h.wnext_le
  rcases Nat.lt_or_gt_of_ne hne with hlt | hlt
  · exact mod_ne_of_window hlt (by omega)
  · exact (mod_ne_of_window hlt (by omega)).symm

include h d

theorem DataInv.copyByte {k : Nat} (hk : c.slots = 2 ^ k) {p n done : Nat} {data : Bytes}
    (hp : s.producers p = .copy n data done) (hlt : done < data.length) :
    DataInv c { s.setProducer p (.copy n data (done + 1)) with
      buf := Function.update s.buf (slotAt c n + done) (data.getD done 0) } := by
  have hown := d.writing p n data done (by rw [hp]; rfl)
  have hseq : (s.producers p).sequence = some n := by
    rw [hp]
    rfl
  obtain ⟨hwn, hnw⟩ := (h.producer p).sequence hseq
  have hr := h.rcursor_le
  have hrw := h.rnext_le
  have hwle := h.wcursor_le
  have hdone : done < c.slotSize := lt_of_lt_of_le hlt hown.fits
  refine { writing := ?_, published := ?_, delivered_nodup := d.delivered_nodup,
           delivered_claimed := d.delivered_claimed, committed_delivered := d.committed_delivered,
           called := d.called, waiting := d.waiting, straight := d.straight }
  · intro q m data' done' hq
    by_cases hqp : q = p
    · subst hqp
      simp only [State.setProducer, Function.update_self] at hq
      obtain ⟨rfl, rfl, rfl⟩ : n = m ∧ data = data' ∧ done + 1 = done' := by
        simpa [Producer.writing] using hq
      refine ⟨hown.item, hown.fits, hlt, fun i hi => ?_⟩
      by_cases hid : i = done
      · subst hid
        simp
      · have hne : slotAt c n + i ≠ slotAt c n + done := by omega
        simp only [Function.update_of_ne hne]
        exact hown.bytes i (by omega)
    · have hq' : (s.producers q).writing = some (m, data', done') := by
        simpa [State.setProducer, Function.update_of_ne hqp] using hq
      have hqs := Producer.sequence_of_writing hq'
      obtain ⟨hwm, hmw⟩ := (h.producer q).sequence hqs
      have hmn : m ≠ n := fun heq => hqp (h.sequences q p m hqs (heq ▸ hseq))
      have hst := (d.writing q m data' done' hq').write hk
        (slot_ne h (by omega) hmw (by omega) hnw hmn) hdone (data.getD done 0)
      exact hst.frame rfl rfl
  · intro m hm hm'
    simp only [State.setProducer] at hm hm'
    obtain ⟨data', hst⟩ := d.published m hm hm'
    have hst := hst.write hk (slot_ne h hm (by omega) (by omega) hnw (by omega)) hdone (data.getD done 0)
    exact ⟨data', hst.frame rfl rfl⟩

theorem DataInv.startCopy {p n : Nat} {data : Bytes} (hp : s.producers p = .has n)
    (hfits : data.length ≤ c.slotSize) :
    DataInv c { s.setProducer p (.copy n data 0) with items := Function.update s.items n (some data) } := by
  have hseq : (s.producers p).sequence = some n := by
    rw [hp]
    rfl
  obtain ⟨hwn, -⟩ := (h.producer p).sequence hseq
  -- the item of another number stays
  have hkeep : ∀ {m : Nat} {data' : Bytes} {done' : Nat}, m ≠ n → Stored c s m data' done' →
      Stored c { s.setProducer p (.copy n data 0) with items := Function.update s.items n (some data) } m data' done' :=
    fun hmn hst => ⟨(Function.update_of_ne hmn _ _).trans hst.item, hst.fits, hst.done_le, hst.bytes⟩
  refine { writing := ?_, published := ?_, delivered_nodup := d.delivered_nodup,
           delivered_claimed := d.delivered_claimed, committed_delivered := d.committed_delivered,
           called := d.called, waiting := d.waiting, straight := d.straight }
  · intro q m data' done' hq
    by_cases hqp : q = p
    · subst hqp
      simp only [State.setProducer, Function.update_self] at hq
      obtain ⟨rfl, rfl, rfl⟩ : n = m ∧ data = data' ∧ 0 = done' := by
        simpa [Producer.writing] using hq
      exact ⟨Function.update_self _ _ _, hfits, Nat.zero_le _, fun i hi => absurd hi (Nat.not_lt_zero i)⟩
    · have hq' : (s.producers q).writing = some (m, data', done') := by
        simpa [State.setProducer, Function.update_of_ne hqp] using hq
      have hqs := Producer.sequence_of_writing hq'
      exact hkeep (fun heq => hqp (h.sequences q p m hqs (heq ▸ hseq))) (d.writing q m data' done' hq')
  · intro m hm hm'
    simp only [State.setProducer] at hm hm'
    obtain ⟨data', hst⟩ := d.published m hm hm'
    exact ⟨data', hkeep (by omega) hst⟩

omit h in
theorem DataInv.publishSequence {p : Nat} {data : Bytes} (hp : s.producers p = .publish (s.wcursor + 1) data) :
    DataInv c { s.setProducer p .out with wcursor := s.wcursor + 1 } := by
  have hout := d.setProducer (p := p) (x := .out) (by simp [Producer.writing])
  refine { writing := ?_, published := ?_, delivered_nodup := d.delivered_nodup,
           delivered_claimed := d.delivered_claimed, committed_delivered := d.committed_delivered,
           called := d.called, waiting := d.waiting, straight := d.straight }
  · intro q n data' done' hq
    exact (hout.writing q n data' done' hq).frame rfl rfl
  · intro n hn hn'
    have hst : ∃ data', Stored c s n data' data'.length := by
      by_cases hlast : n = s.wcursor + 1
      · subst hlast
        exact ⟨data, d.writing p _ data _ (by rw [hp]; rfl)⟩
      · simp only [State.setProducer] at hn hn'
        exact d.published n hn (by omega)
    obtain ⟨data', hst⟩ := hst
    exact ⟨data', hst.frame rfl rfl⟩

theorem DataInv.claimBatch {i next : Nat} (hi : s.consumers i = .claim s.rnext next)
    (hstraight : Straight c (s.rnext, next)) :
    DataInv c { s.setConsumer i (.taken s.rnext next) with
      rnext := next, claimed := s.claimed ++ [(s.rnext, next)] } := by
  have hlt : s.rnext < next := by
    have := h.consumer i
    rw [hi] at this
    exact this.2.1
  have hnew : (s.rnext, next) ∉ s.delivered := by
    intro hmem
    obtain ⟨flight, hclaimed, hcom, hfl, -⟩ := h.chain
    have hall := consecutive_append.2 ⟨_, hcom, hfl⟩
    rw [← hclaimed] at hall
    have := (hall.mem (d.delivered_claimed _ hmem)).2.2
    omega
  have htaken := d.setConsumer (i := i) (x := .taken s.rnext next) (by simp [Consumer.called]) (by
    intro b hb
    obtain rfl : (s.rnext, next) = b := by simpa [Consumer.waiting] using hb
    exact hnew)
  refine { writing := ?_, published := ?_, delivered_nodup := d.delivered_nodup, delivered_claimed := ?_,
           committed_delivered := d.committed_delivered, called := htaken.called, waiting := htaken.waiting,
           straight := ?_ }
  · intro p n data done hp
    exact (d.writing p n data done hp).frame rfl rfl
  · intro n hn hn'
    obtain ⟨data, hst⟩ := d.published n hn hn'
    exact ⟨data, hst.frame rfl rfl⟩
  · intro b hb
    exact List.mem_append_left _ (d.delivered_claimed b hb)
  · intro b hb
    rcases List.mem_append.1 hb with hb | hb
    · exact d.straight b hb
    · rw [List.mem_singleton.1 hb]
      exact hstraight

/-- The call of `on_consumer`. -/
theorem DataInv.deliver {i current next : Nat} (hi : s.consumers i = .taken current next) :
    DataInv c { s.setConsumer i (.calling current next) with delivered := s.delivered ++ [(current, next)] } := by
  have hbatch : (s.consumers i).batch = some (current, next) := by
    rw [hi]
    rfl
  have hnew : (current, next) ∉ s.delivered := d.waiting i _ (by rw [hi]; rfl)
  refine { writing := ?_, published := ?_, delivered_nodup := ?_, delivered_claimed := ?_,
           committed_delivered := ?_, called := ?_, waiting := ?_, straight := d.straight }
  · intro p n data done hp
    exact (d.writing p n data done hp).frame rfl rfl
  · intro n hn hn'
    obtain ⟨data, hst⟩ := d.published n hn hn'
    exact ⟨data, hst.frame rfl rfl⟩
  · refine List.nodup_append.2 ⟨d.delivered_nodup, List.nodup_singleton _, ?_⟩
    rintro a ha b hb rfl
    exact hnew (List.mem_singleton.1 hb ▸ ha)
  · intro b hb
    rcases List.mem_append.1 hb with hb | hb
    · exact d.delivered_claimed b hb
    · obtain ⟨flight, hclaimed, -, -, hmem⟩ := h.chain
      rw [List.mem_singleton.1 hb]
      simp only [State.setConsumer, hclaimed]
      exact List.mem_append_right _ (hmem i _ hbatch)
  · intro b hb
    exact List.mem_append_left _ (d.committed_delivered b hb)
  · intro j b hj
    by_cases hji : j = i
    · subst hji
      obtain rfl : (current, next) = b := by simpa [State.setConsumer, Consumer.called] using hj
      simp
    · refine List.mem_append_left _ (d.called j b ?_)
      simpa [State.setConsumer, Function.update_of_ne hji] using hj
  · intro j b hj hb
    by_cases hji : j = i
    · subst hji
      simp [State.setConsumer, Consumer.waiting] at hj
    · have hj' : (s.consumers j).waiting = some b := by
        simpa [State.setConsumer, Function.update_of_ne hji] using hj
      rcases List.mem_append.1 hb with hb | hb
      · exact d.waiting j b hj' hb
      · rw [List.mem_singleton.1 hb] at hj'
        exact hji (h.batches j i _ (Consumer.batch_of_waiting hj') hbatch)

theorem DataInv.commitBatch {i next : Nat} (hi : s.consumers i = .commit s.rcursor next) :
    DataInv c { s.setConsumer i .again with
      rcursor := next, committed := s.committed ++ [(s.rcursor, next)] } := by
  have hlt : s.rcursor < next := by
    obtain ⟨flight, -, -, hfl, hmem⟩ := h.chain
    exact (hfl.mem (hmem i _ (by rw [hi]; rfl))).2.1
  have hagain := d.setConsumer (i := i) (x := .again) (by simp [Consumer.called]) (by simp [Consumer.waiting])
  refine { writing := ?_, published := ?_, delivered_nodup := d.delivered_nodup,
           delivered_claimed := d.delivered_claimed, committed_delivered := ?_, called := hagain.called,
           waiting := hagain.waiting, straight := d.straight }
  · intro p n data done hp
    exact (d.writing p n data done hp).frame rfl rfl
  · intro n hn hn'
    simp only [State.setConsumer] at hn hn'
    obtain ⟨data, hst⟩ := d.published n (by omega) hn'
    exact ⟨data, hst.frame rfl rfl⟩
  · intro b hb
    rcases List.mem_append.1 hb with hb | hb
    · exact d.committed_delivered b hb
    · rw [List.mem_singleton.1 hb]
      exact d.called i _ (by rw [hi]; rfl)

theorem DataInv.stepProducer {k : Nat} (hk : c.slots = 2 ^ k) {p : Nat} (hgive : NotGivenUp s (.producer p)) :
    DataInv c (stepProducer c s p) := by
  unfold NgxPlus.Disruptor.stepProducer
  cases hp : s.producers p with
  | out => exact d
  | read next => exact d.setProducer (by simp [Producer.writing])
  | check current next =>
    simp only
    split
    · exact d.setProducer (by simp [Producer.writing])
    · exact d.setProducer (by simp [Producer.writing])
  | blocked next =>
    simp only
    rw [if_pos (hgive (by rw [hp]; rfl))]
    exact d.setProducer (by simp [Producer.writing])
  | claim current =>
    simp only
    split
    · have hhas := d.setProducer (p := p) (x := .has (current + 1)) (by simp [Producer.writing])
      refine { writing := ?_, published := ?_, delivered_nodup := d.delivered_nodup,
               delivered_claimed := d.delivered_claimed, committed_delivered := d.committed_delivered,
               called := d.called, waiting := d.waiting, straight := d.straight }
      · intro q n data done hq
        exact (hhas.writing q n data done hq).frame rfl rfl
      · intro n hn hn'
        obtain ⟨data, hst⟩ := d.published n hn hn'
        exact ⟨data, hst.frame rfl rfl⟩
    · exact d.setProducer (by simp [Producer.writing])
  | has sequence => exact d
  | copy sequence data done =>
    simp only
    split
    · rename_i hlt
      exact d.copyByte h hk hp hlt
    · rename_i hge
      refine d.setProducer fun n data' done' hx => ?_
      have hst := d.writing p sequence data done (by rw [hp]; rfl)
      have hdone : done = data.length := le_antisymm hst.done_le (by omega)
      obtain ⟨rfl, rfl, rfl⟩ : sequence = n ∧ data = data' ∧ data.length = done' := by
        simpa [Producer.writing] using hx
      exact hdone ▸ hst
  | publish sequence data =>
    simp only
    split
    · rename_i heq
      subst heq
      exact d.publishSequence hp
    · exact d

theorem DataInv.stepConsumer {i : Nat} (hstraight : ClaimsStraight c s (.consumer i)) :
    DataInv c (stepConsumer c s i) := by
  have hnone : ∀ {x : Consumer}, x.called = none → x.waiting = none → DataInv c (s.setConsumer i x) :=
    fun hcalled hwaiting => d.setConsumer (by simp [hcalled]) (by simp [hwaiting])
  have hkeep : ∀ {x : Consumer} {b : Nat × Nat}, (s.consumers i).called = some b → x.called = some b →
      x.waiting = none → DataInv c (s.setConsumer i x) := by
    intro x b hi hx hwaiting
    refine d.setConsumer (fun b' hb' => d.called i b' ?_) (by simp [hwaiting])
    rw [hi, ← hx, hb']
  unfold NgxPlus.Disruptor.stepConsumer
  cases hi : s.consumers i with
  | off => exact d
  | prepare => exact hnone rfl rfl
  | seen current =>
    simp only
    split
    · exact hnone rfl rfl
    · exact hnone rfl rfl
  | idle =>
    simp only
    split
    · exact hnone rfl rfl
    · exact hnone rfl rfl
  | limit current =>
    simp only
    split
    · exact hnone rfl rfl
    · exact hnone rfl rfl
  | clamp current =>
    simp only
    split
    · exact hnone rfl rfl
    · exact hnone rfl rfl
  | claim current next =>
    simp only
    split
    · rename_i heq
      subst heq
      exact d.claimBatch h hi (hstraight (s.rnext, next) (by rw [hi]; rfl) rfl)
    · exact hnone rfl rfl
  | taken current next => exact d.deliver h hi
  | calling current next => exact hkeep (b := (current, next)) (by rw [hi]; rfl) rfl rfl
  | commit current next =>
    simp only
    split
    · rename_i heq
      subst heq
      exact d.commitBatch h hi
    · exact hkeep (b := (current, next)) (by rw [hi]; rfl) rfl rfl
  | retry current next =>
    simp only
    split
    · exact hkeep (b := (current, next)) (by rw [hi]; rfl) rfl rfl
    · exact hnone rfl rfl
  | again =>
    simp only
    split
    · exact hnone rfl rfl
    · exact hnone rfl rfl
  | ended => exact d

omit h in
theorem DataInv.startup (workThreads : Nat) : DataInv c (step c s (.startup workThreads)) where
  writing p n data done hp := (d.writing p n data done hp).frame rfl rfl
  published n hn hn' := by
    obtain ⟨data, hst⟩ := d.published n hn hn'
    exact ⟨data, hst.frame rfl rfl⟩
  delivered_nodup := d.delivered_nodup
  delivered_claimed := d.delivered_claimed
  committed_delivered := d.committed_delivered
  called i b hi := by
    simp only [NgxPlus.Disruptor.step] at hi
    split at hi
    · simp [Consumer.called] at hi
    · exact d.called i b hi
  waiting i b hi := by
    simp only [NgxPlus.Disruptor.step] at hi
    split at hi
    · simp [Consumer.waiting] at hi
    · exact d.waiting i b hi
  straight := d.straight

theorem DataInv.step {k : Nat} (hk : c.slots = 2 ^ k) {a : Action} (hgive : NotGivenUp s a)
    (hstraight : ClaimsStraight c s a) : DataInv c (step c s a) := by
  cases a with
  | startup workThreads => exact d.startup workThreads
  | next p garbage =>
    unfold NgxPlus.Disruptor.step
    simp only
    split
    · split
      · exact d
      · exact d.setProducer (by simp [Producer.writing])
    · exact d
  | publish p data =>
    unfold NgxPlus.Disruptor.step
    simp only
    split
    · rename_i sequence hp
      split
      · exact d.setProducer (by simp [Producer.writing])
      · split
        · exact d.setProducer (by simp [Producer.writing])
        · exact d.startCopy h hp (by omega)
    · exact d
  | producer p => exact d.stepProducer h hk hgive
  | consumer i => exact d.stepConsumer h hstraight

/-- A batch whose slots follow each other is given with its items. -/
theorem callOk {k : Nat} (hk : c.slots = 2 ^ k) {i current next : Nat}
    (hi : s.consumers i = .calling current next) : CallOk c s current next := by
  obtain ⟨flight, hclaimed, -, hfl, hmem⟩ := h.chain
  have hflight : (current, next) ∈ flight := hmem i _ (by rw [hi]; rfl)
  obtain ⟨hr, hlt, hn⟩ := hfl.mem hflight
  have hw := h.rnext_le
  have hstraight : (current + 1) % c.slots + (next - current) ≤ c.slots := by
    have := d.straight (current, next) (hclaimed ▸ List.mem_append_right _ hflight)
    unfold Straight at this
    rw [hk, Nat.and_two_pow_sub_one_eq_mod, ← hk] at this
    exact this
  have hand : current + 1 &&& (c.slots - 1) = (current + 1) % c.slots := by
    rw [hk, Nat.and_two_pow_sub_one_eq_mod]
  refine ⟨?_, fun j hj => ?_⟩
  · rw [hand, Nat.mul_comm c.slotSize, ← Nat.add_mul]
    exact Nat.mul_le_mul_right _ hstraight
  · obtain ⟨item, hst⟩ := d.published (current + 1 + j) (by omega) (by omega)
    refine ⟨item, hst.item, hst.fits, fun b hb => ?_⟩
    -- the j-th slot behind the first one is that of the j-th number
    have hslot : (current + 1 + j) % c.slots = (current + 1) % c.slots + j := by
      rw [Nat.add_mod, Nat.mod_eq_of_lt (a := j) (by omega), Nat.mod_eq_of_lt (by omega)]
    have hat : c.slotSize * (current + 1 &&& (c.slots - 1)) + j * c.slotSize + b =
        slotAt c (current + 1 + j) + b := by
      rw [hand, slotAt_mod hk, hslot, Nat.mul_comm c.slotSize, ← Nat.add_mul]
    rw [hat]
    exact hst.bytes b hb

end Step

/-- In a run in which no producer gives up on a full ring and no batch goes over its end, every
batch is delivered once, the committed numbers are cut into committed batches, and a callback
finds the items of its batch in the ring. -/
theorem delivered_once {slots batchSize : Int} {slotSize : Nat} {c : Cfg}
    (hc : ngxDisruptorCreate slots slotSize batchSize = some c) {acts : List Action}
    (hacts : Trace.Always (step c) (fun s a => NotGivenUp s a ∧ ClaimsStraight c s a) .init acts) :
    let s := Trace.run (step c) .init acts
    (∃ flight, Consecutive 0 s.committed s.rcursor ∧ Consecutive s.rcursor flight s.rnext ∧ s.delivered.Nodup ∧
      s.committed ⊆ s.delivered ∧ s.delivered ⊆ s.committed ++ flight) ∧
      ∀ i current next, s.consumers i = .calling current next → CallOk c s current next := by
  obtain ⟨⟨k, hk⟩, hbatch⟩ := create_eq_some hc
  obtain ⟨h, d⟩ : Inv c (Trace.run (step c) .init acts).toCore ∧ DataInv c (Trace.run (step c) .init acts) :=
    Trace.run_inv (step c) (I := fun s => Inv c s.toCore ∧ DataInv c s)
      (fun s a hI ha => ⟨hI.1.step hbatch ha.1, hI.2.step hI.1 hk ha.1 ha.2⟩) ⟨inv_init c, dataInv_init c⟩ hacts
  obtain ⟨flight, hclaimed, hcom, hfl, -⟩ := h.chain
  refine ⟨⟨flight, hcom, hfl, d.delivered_nodup, d.committed_delivered, ?_⟩, fun i current next hi => callOk h d hk hi⟩
  intro b hb
  exact hclaimed ▸ d.delivered_claimed b hb

theorem delivered_once_oneItem : (Trace.run (step ⟨2, 4, 1⟩) .init (oneItem ++ [.consumer 0])).delivered = [(0, 1)] ∧
    CallOk ⟨2, 4, 1⟩ (Trace.run (step ⟨2, 4, 1⟩) .init (oneItem ++ [.consumer 0])) 0 1 := by
  have hcreate : ngxDisruptorCreate 2 4 1 = some ⟨2, 4, 1⟩ := by decide
  have hacts : Trace.Always (step ⟨2, 4, 1⟩) (fun s a => NotGivenUp s a ∧ ClaimsStraight ⟨2, 4, 1⟩ s a) .init
      (oneItem ++ [.consumer 0]) := by decide
  exact ⟨by decide, (delivered_once hcreate hacts).2 0 0 1 (by decide)⟩

/-- Producer `p` takes a number and publishes a byte. -/
def produce (p : Nat) (b : UInt8) : List Action :=
  [.next p 0, .producer p, .producer p, .producer p, .publish p [b], .producer p, .producer p, .producer p]

/-- Two items in a ring of two slots, taken as one batch: the second lies in front of the first. -/
def overTheEnd : List Action :=
  .startup 1 :: produce 0 0x61 ++ produce 1 0x62 ++ [.consumer 0, .consumer 0, .consumer 0, .consumer 0, .consumer 0]

theorem batch_over_the_end : ngxDisruptorCreate 2 4 2 = some ⟨2, 4, 2⟩ ∧
    (Trace.run (step ⟨2, 4, 2⟩) .init overTheEnd).consumers 0 = .calling 0 2 ∧
    ¬ CallOk ⟨2, 4, 2⟩ (Trace.run (step ⟨2, 4, 2⟩) .init overTheEnd) 0 2 := by
  refine ⟨by decide, by decide, fun hcall => ?_⟩
  have := hcall.inside
  revert this
  decide

end NgxPlus.Disruptor
