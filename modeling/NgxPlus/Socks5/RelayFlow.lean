import NgxPlus.Socks5.RelayChain

/-!
# The SOCKS5 relay: one direction

`Flow.Ok` is what holds of a direction whenever its session is open: the bytes received are the
bytes sent and then those of the chains, which cover the end of the used part of the buffer.
`writeOut_spec` and `receive_spec` are the two halves of the loop, `processLoop_spec` the loop.
-/

namespace NgxPlus.Socks5.Relay

open ByteMem

/-! ## The send chain -/

theorem WriteAnswer.accepted_le (size : Nat) (ans : WriteAnswer) : ans.accepted size ≤ size := by
  cases ans with
  | took n => exact Nat.min_le_right ..
  | again => exact Nat.zero_le _
  | error => exact Nat.zero_le _

/-- What a call of the send chain did: `n` bytes from `p` on went out. -/
structure Wrote (conf : Conf) (bufs : Nat → Buf) (f : Flow) (c : Chain) (send p q : Nat)
    (r : (Nat → Buf) × Flow × Option Chain × List WriteAnswer) : Prop where
  flow : ∃ n w, p + n ≤ q ∧ r.2.1 = { f with sent := f.sent ++ seg f.mem p (p + n), writeReady := w } ∧
    ∀ c', r.2.2.1 = some c' → SentTo bufs c p n q r.1 c' ∧ (send + (q - p) ≤ conf.limit → c' ≠ [] → w = false)

theorem Wrote.stop (conf : Conf) {bufs : Nat → Buf} {f : Flow} {c : Chain} (send : Nat) {p q n : Nat} {w : Bool}
    (rest : List WriteAnswer) (hc : Covers bufs p c q) (hnd : c.Nodup) (hn : p + n ≤ q)
    (hw : send + (q - p) ≤ conf.limit → (ngxChainUpdateSent bufs c n).2 ≠ [] → w = false) :
    Wrote conf bufs f c send p q ((ngxChainUpdateSent bufs c n).1,
      { f with sent := f.sent ++ seg f.mem p (p + n), writeReady := w }, some (ngxChainUpdateSent bufs c n).2, rest) := by
  refine ⟨n, w, hn, rfl, fun c' hc' => ?_⟩
  obtain rfl := Option.some.inj hc'
  exact ⟨ngxChainUpdateSent_spec hc hnd hn, hw⟩

theorem ngxWritevChain_spec (conf : Conf) (answers : List WriteAnswer) {bufs : Nat → Buf} {f : Flow} {c : Chain}
    (send : Nat) {p q : Nat} (hc : Covers bufs p c q) (hnd : c.Nodup) :
    Wrote conf bufs f c send p q (ngxWritevChain conf answers bufs f c send) := by
  induction answers generalizing bufs f c send p with
  | nil =>
    obtain ⟨iovs, size, hv, hsize, -, hpos⟩ := ngxOutputChainToIovec_spec (conf.limit - send) f.mem [] none 0 hc
      (by simp [EndsAt])
    rw [Nat.zero_add] at hv
    have hstop := fun w => Wrote.stop conf send [] (f := f) (n := 0) (w := w) hc hnd hc.le
    simp only [Nat.add_zero, seg_self, List.append_nil] at hstop
    rw [ngxWritevChain, hv]
    simp only
    by_cases hz : size ≠ 0
    · rw [if_pos hz]
      exact hstop false fun _ _ => rfl
    · rw [if_neg hz]
      refine hstop f.writeReady fun hlim hne => ?_
      -- an empty vector is that of a chain without data
      obtain rfl : p = q := by
        by_contra hpq
        have := hpos (lt_of_le_of_ne hc.le hpq) (by have := hc.le; omega) (by simp [ngxIovsPreallocate])
        omega
      have hu := ngxChainUpdateSent_spec hc hnd (le_refl (p + 0))
      exact absurd (hu.covers.eq_nil hu.front) hne
  | cons ans rest ih =>
    obtain ⟨iovs, size, hv, hsize, hg, hpos⟩ := ngxOutputChainToIovec_spec (conf.limit - send) f.mem [] none 0 hc
      (by simp [EndsAt])
    rw [Nat.zero_add] at hv
    have hstep : Wrote conf bufs f c send p q
        (if size ≠ ans.accepted size then ((ngxChainUpdateSent bufs c (ans.accepted size)).1,
          { f with sent := f.sent ++ (gathered f.mem iovs).take (ans.accepted size), writeReady := false },
          some (ngxChainUpdateSent bufs c (ans.accepted size)).2, rest)
        else if conf.limit ≤ send + size ∨ (ngxChainUpdateSent bufs c (ans.accepted size)).2 = [] then
          ((ngxChainUpdateSent bufs c (ans.accepted size)).1,
            { f with sent := f.sent ++ (gathered f.mem iovs).take (ans.accepted size) },
            some (ngxChainUpdateSent bufs c (ans.accepted size)).2, rest)
        else ngxWritevChain conf rest (ngxChainUpdateSent bufs c (ans.accepted size)).1
          { f with sent := f.sent ++ (gathered f.mem iovs).take (ans.accepted size) }
          (ngxChainUpdateSent bufs c (ans.accepted size)).2 (send + size)) := by
      have hacc := ans.accepted_le size
      have hbytes : (gathered f.mem iovs).take (ans.accepted size) = seg f.mem p (p + ans.accepted size) := by
        have : gathered f.mem iovs = seg f.mem p (p + size) := by simpa [gathered] using hg
        rw [this, take_seg _ (Nat.add_le_add_left hacc p)]
      rw [hbytes]
      have hn : p + ans.accepted size ≤ q := by omega
      have hu := ngxChainUpdateSent_spec hc hnd hn
      split
      · exact Wrote.stop conf send rest hc hnd hn fun _ _ => rfl
      · rename_i hall
        rw [not_not] at hall
        split
        · rename_i hstop
          refine Wrote.stop conf send rest (w := f.writeReady) hc hnd hn fun hlim hne => ?_
          -- at the limit everything is sent
          rcases hstop with hstop | hstop
          · have hq : p + ans.accepted size = q := by omega
            exact absurd ((hq ▸ hu.covers : Covers _ q _ q).eq_nil hu.front) hne
          · exact absurd hstop hne
        · have hnd' : (ngxChainUpdateSent bufs c (ans.accepted size)).2.Nodup := by
            obtain ⟨done, hdone, -⟩ := hu.suffix
            rw [hdone] at hnd
            exact (List.nodup_append.1 hnd).2.1
          obtain ⟨m, w, hm, hf, hchain⟩ := (ih (f := { f with sent := f.sent ++ seg f.mem p (p + ans.accepted size) })
            (send + size) hu.covers hnd').flow
          refine ⟨ans.accepted size + m, w, by omega, ?_, fun c' hc' => ?_⟩
          · rw [hf, List.append_assoc, seg_append _ (Nat.le_add_right ..) (Nat.le_add_right ..), Nat.add_assoc]
          · obtain ⟨hsent, hw⟩ := hchain c' hc'
            exact ⟨hu.trans hnd hsent, fun hlim => hw (by omega)⟩
    cases ans with
    | error =>
      rw [ngxWritevChain, hv]
      exact ⟨0, f.writeReady, by simpa using hc.le, by simp, by simp⟩
    | took n =>
      rw [ngxWritevChain, hv]
      exact hstep
    | again =>
      rw [ngxWritevChain, hv]
      exact hstep

/-- `c->send_chain`. -/
theorem sendChain_spec (conf : Conf) (answers : List WriteAnswer) {bufs : Nat → Buf} {f : Flow} {c : Chain}
    {p q : Nat} (hc : Covers bufs p c q) (hnd : c.Nodup) (hf : FrontFull bufs c) :
    Wrote conf bufs f c 0 p q (sendChain conf answers bufs f c) := by
  rw [sendChain]
  split
  · exact ngxWritevChain_spec conf answers 0 hc hnd
  · rename_i hw
    refine ⟨0, f.writeReady, by simpa using hc.le, by simp, fun c' hc' => ?_⟩
    obtain rfl := Option.some.inj hc'
    exact ⟨⟨fun _ _ => rfl, hc, ⟨[], rfl, by simp⟩, hf, fun _ => rfl⟩, fun _ _ => by simpa using hw⟩

/-! ## The invariant of a direction -/

/-- The source will not give any more bytes. -/
def Flow.Ended (f : Flow) : Prop := f.error = true ∨ f.fin = true ∧ f.taken = f.stream.length

structure Flow.Ok (conf : Conf) (bufs : Nat → Buf) (f : Flow) : Prop where
  covers : ∃ p, Covers bufs p (f.busy ++ f.out) f.last ∧ f.sent ++ seg f.mem p f.last = f.stream.take f.taken
  saved : f.saved = f.busy
  buffered : f.buffered = !f.busy.isEmpty
  front : FrontFull bufs f.busy
  room : f.last ≤ conf.bufferSize
  taken : f.taken ≤ f.stream.length
  received : f.received = f.taken
  ended : (∃ i ∈ f.busy ++ f.out, (bufs i).temporary = false) → f.Ended
  eof : f.eof = true → f.Ended
  failed : f.failed = false
  alerts : f.alerts = []

/-- Bytes are kept back only while the destination takes none. -/
def Flow.Waits (conf : Conf) (f : Flow) : Prop :=
  conf.bufferSize ≤ conf.limit → f.busy ≠ [] → f.writeReady = false

/-- The pool beside the chains that are in use. -/
structure Pool.Ok (p : Pool) (live : Chain) : Prop where
  nodup : (p.free ++ live).Nodup
  bound : ∀ i ∈ p.free ++ live, i < p.fresh

/-- The direction without what the writing half changes. -/
def Flow.reading (f : Flow) : Flow :=
  { f with
    last := 0, out := [], busy := [], saved := [], writeReady := false, buffered := false
    failed := false, sent := [], alerts := [] }

theorem reading_eq {f g : Flow} (h : f.reading = g.reading) :
    f.stream = g.stream ∧ f.fin = g.fin ∧ f.received = g.received :=
  ⟨show f.reading.stream = g.reading.stream from congrArg Flow.stream h,
    show f.reading.fin = g.reading.fin from congrArg Flow.fin h,
    show f.reading.received = g.reading.received from congrArg Flow.received h⟩

theorem Flow.Ok.sent_prefix {conf : Conf} {bufs : Nat → Buf} {f : Flow} (h : f.Ok conf bufs) :
    f.sent <+: f.stream.take f.taken := by
  obtain ⟨p, -, heq⟩ := h.covers
  rw [← heq]
  exact List.prefix_append _ _

theorem Flow.Ok.read {conf : Conf} {bufs : Nat → Buf} {f : Flow} (h : f.Ok conf bufs) (ready delayed : Bool) :
    Flow.Ok conf bufs { f with ready := ready, delayed := delayed } where
  covers := h.covers
  saved := h.saved
  buffered := h.buffered
  front := h.front
  room := h.room
  taken := h.taken
  received := h.received
  ended := h.ended
  eof := h.eof
  failed := h.failed
  alerts := h.alerts

theorem Flow.Ok.congr {conf : Conf} {bufs bufs' : Nat → Buf} {f : Flow} (h : f.Ok conf bufs)
    (hb : ∀ i ∈ f.busy ++ f.out, bufs' i = bufs i) : f.Ok conf bufs' where
  covers := by
    obtain ⟨p, hc, heq⟩ := h.covers
    exact ⟨p, hc.congr hb, heq⟩
  saved := h.saved
  buffered := h.buffered
  front := fun i hi => by
    rw [hb i (List.mem_append_left _ (List.mem_of_mem_head? hi))]
    exact h.front i hi
  room := h.room
  taken := h.taken
  received := h.received
  ended := fun ⟨i, hi, ht⟩ => h.ended ⟨i, hi, hb i hi ▸ ht⟩
  eof := h.eof
  failed := h.failed
  alerts := h.alerts

theorem Pool.Ok.perm {p p' : Pool} {live live' : Chain} (h : p.Ok live)
    (hp : (p'.free ++ live').Perm (p.free ++ live)) (hf : p'.fresh = p.fresh) : p'.Ok live' where
  nodup := hp.nodup_iff.2 h.nodup
  bound := fun i hi => hf ▸ h.bound i (hp.mem_iff.1 hi)

/-! ## Writing -/

/-- Exactly the empty bufs at the front go to the list of free bufs. -/
theorem freeSent_append (p : Pool) {done c : Chain} (hnd : (done ++ c).Nodup)
    (hz : ∀ i ∈ done, (p.bufs i).size = 0) (hf : FrontFull p.bufs c) :
    ∃ bufs', freeSent p (done ++ c) = (⟨bufs', done.reverse ++ p.free, p.fresh⟩, c) ∧
      ∀ i ∉ done, bufs' i = p.bufs i := by
  induction done generalizing p with
  | nil =>
    refine ⟨p.bufs, ?_, fun i _ => rfl⟩
    cases c with
    | nil => rfl
    | cons i c =>
      rw [List.nil_append, freeSent, if_neg (hf i rfl)]
      rfl
  | cons i done ih =>
    obtain ⟨hi, hnd'⟩ := List.nodup_cons.1 hnd
    obtain ⟨hzi, hz'⟩ := List.forall_mem_cons.1 hz
    have hupd : ∀ b : Buf, ∀ j ∈ done ++ c, Function.update p.bufs i b j = p.bufs j := fun b j hj =>
      Function.update_of_ne (ne_of_mem_of_not_mem hj hi) b p.bufs
    rw [List.cons_append, freeSent, if_pos hzi]
    obtain ⟨bufs', he, hother⟩ := ih
      ⟨Function.update p.bufs i { p.bufs i with pos := 0, last := 0 }, i :: p.free, p.fresh⟩ hnd'
      (fun j hj => by
        simp only [hupd _ j (List.mem_append_left _ hj)]
        exact hz' j hj)
      (fun j hj => by
        simp only [hupd _ j (List.mem_append_right _ (List.mem_of_mem_head? hj))]
        exact hf j hj)
    refine ⟨bufs', ?_, fun j hj => ?_⟩
    · rw [he]
      simp
    · rw [List.mem_cons, not_or] at hj
      exact (hother j hj.2).trans (Function.update_of_ne hj.1 _ _)

/-- What the writing half of a round leaves. `o` are the bufs of the other direction. -/
structure Written (conf : Conf) (l : Loop) (o : Chain) (r : Loop × Option Closed) : Prop where
  reading : r.1.flow.reading = l.flow.reading
  why : r.2 = none ∨ r.2 = some .writeError
  sent : l.flow.sent <+: r.1.flow.sent
  bounded : r.1.flow.sent <+: l.flow.stream.take l.flow.taken
  alerts : r.1.flow.alerts = []
  ok : r.2 = none → r.1.flow.Ok conf r.1.pool.bufs ∧ r.1.pool.Ok (r.1.flow.busy ++ r.1.flow.out ++ o) ∧
    r.1.flow.out = [] ∧ r.1.flow.Waits conf ∧ ∀ i ∈ o, r.1.pool.bufs i = l.pool.bufs i

/-- Behind a call of the filter that did not fail: the sent bufs are freed, and an empty chain
empties the buffer. -/
theorem written_of_sentTo {conf : Conf} {l : Loop} {o : Chain} (hok : l.flow.Ok conf l.pool.bufs)
    (hp : l.pool.Ok (l.flow.busy ++ l.flow.out ++ o)) {p n : Nat} {bufs' : Nat → Buf} {c' : Chain} {w : Bool}
    (rest : List WriteAnswer)
    (heq : l.flow.sent ++ seg l.flow.mem p l.flow.last = l.flow.stream.take l.flow.taken) (hn : p + n ≤ l.flow.last)
    (hsent : SentTo l.pool.bufs (l.flow.busy ++ l.flow.out) p n l.flow.last bufs' c')
    (hw : conf.bufferSize ≤ conf.limit → c' ≠ [] → w = false) :
    let f' : Flow := { l.flow with
      sent := l.flow.sent ++ seg l.flow.mem p (p + n), writeReady := w, saved := c', buffered := !c'.isEmpty }
    let u := ngxChainUpdateChains { l.pool with bufs := bufs' } f'
    Written conf l o (⟨u.1, if u.2.busy.isEmpty then { u.2 with last := 0 } else u.2, rest⟩, none) := by
  obtain ⟨done, hdone, hz⟩ := hsent.suffix
  have hnd : (done ++ c').Nodup := by
    rw [← hdone]
    exact (List.nodup_append.1 (List.nodup_append.1 hp.nodup).2.1).1
  obtain ⟨bufs'', hfree, hother⟩ := freeSent_append { l.pool with bufs := bufs' } hnd hz hsent.front
  have hc' : ∀ i ∈ c', bufs'' i = bufs' i := fun i hi => hother i fun hd => List.disjoint_of_nodup_append hnd hd hi
  have hcov : Covers bufs'' (p + n) c' l.flow.last := hsent.covers.congr hc'
  have hfront : FrontFull bufs'' c' := fun i hi => by
    rw [hc' i (List.mem_of_mem_head? hi)]
    exact hsent.front i hi
  have hbytes : l.flow.sent ++ seg l.flow.mem p (p + n) ++ seg l.flow.mem (p + n) l.flow.last =
      l.flow.stream.take l.flow.taken := by
    rw [List.append_assoc, seg_append _ (Nat.le_add_right ..) hn, heq]
  have hdisj : ∀ i ∈ o, i ∉ l.flow.busy ++ l.flow.out := fun i hi hm =>
    List.disjoint_of_nodup_append (List.nodup_append.1 hp.nodup).2.1 hm hi
  have hended : (∃ i ∈ c', (bufs'' i).temporary = false) → l.flow.Ended := by
    rintro ⟨i, hi, ht⟩
    refine hok.ended ⟨i, hdone ▸ List.mem_append_right _ hi, ?_⟩
    rw [hc' i hi, hsent.kind] at ht
    exact ht
  intro f' u
  have hu : u = (⟨bufs'', done.reverse ++ l.pool.free, l.pool.fresh⟩, { f' with out := [], busy := c' }) := by
    simp only [u, ngxChainUpdateChains, f']
    rw [hdone, hfree]
  have hperm : (done.reverse ++ l.pool.free ++ (c' ++ [] ++ o)).Perm
      (l.pool.free ++ (l.flow.busy ++ l.flow.out ++ o)) := by
    rw [hdone, List.append_nil, List.append_assoc, List.append_assoc]
    refine ((List.reverse_perm done).append_right _).trans ?_
    rw [← List.append_assoc, ← List.append_assoc l.pool.free]
    exact List.perm_append_comm.append_right _
  have hok' : ∀ lastPos : Nat, (c' ≠ [] → lastPos = l.flow.last) → lastPos ≤ l.flow.last →
      Flow.Ok conf bufs'' { f' with out := [], busy := c', last := lastPos } := by
    intro lastPos hlast hle
    refine ⟨?_, rfl, rfl, hfront, hle.trans hok.room, hok.taken, hok.received, ?_, hok.eof, hok.failed, hok.alerts⟩
    · by_cases hne : c' = []
      · have hpn : p + n = l.flow.last := by
          rw [hne] at hcov
          exact hcov
        refine ⟨lastPos, by simp [hne, Covers], ?_⟩
        rw [← hpn, seg_self, List.append_nil] at hbytes
        simpa [f'] using hbytes
      · rw [hlast hne]
        exact ⟨p + n, by simpa using hcov, hbytes⟩
    · rintro ⟨i, hi, ht⟩
      exact hended ⟨i, by simpa using hi, ht⟩
  rw [hu]
  refine ⟨?_, Or.inl rfl, ?_, ?_, ?_, fun _ => ⟨?_, ?_, ?_, ?_, fun i hi => ?_⟩⟩
  · simp only
    split <;> rfl
  · simp only
    split <;> exact List.prefix_append _ _
  · rw [← hbytes]
    simp only
    split <;> exact List.prefix_append _ _
  · simp only
    split <;> exact hok.alerts
  · simp only
    split
    · rename_i hemp
      exact hok' 0 (fun hne => absurd (List.isEmpty_iff.1 hemp) hne) (Nat.zero_le _)
    · exact hok' l.flow.last (fun _ => rfl) le_rfl
  · simp only
    split <;> exact hp.perm hperm rfl
  · simp only
    split <;> rfl
  · simp only
    split <;> exact hw
  · have hnd' : i ∉ done := fun hd => hdisj i hi (hdone ▸ List.mem_append_left _ hd)
    simp only
    rw [hother i hnd']
    exact hsent.frame i (hdisj i hi)

theorem Flow.Ok.chain_ne_nil {conf : Conf} {bufs : Nat → Buf} {f : Flow} (h : f.Ok conf bufs)
    (hne : ¬ (f.out.isEmpty && f.busy.isEmpty && !f.buffered) = true) : f.busy ++ f.out ≠ [] := by
  intro he
  obtain ⟨hb, ho⟩ := List.append_eq_nil_iff.1 he
  exact hne (by simp [h.buffered, hb, ho])

/-- What the filter did: it failed, or it sent `n` bytes and keeps the rest of the chain. -/
inductive Filtered (conf : Conf) (bufs : Nat → Buf) (f : Flow) (p : Nat) :
    (Nat → Buf) × Flow × Rc × List WriteAnswer → Prop
  | failed (bufs' : Nat → Buf) (n : Nat) (w : Bool) (rest : List WriteAnswer) (hn : p + n ≤ f.last) :
    Filtered conf bufs f p (bufs', { f with sent := f.sent ++ seg f.mem p (p + n), writeReady := w, failed := true },
      .error, rest)
  | sent (bufs' : Nat → Buf) (n : Nat) (w : Bool) (c' : Chain) (rc : Rc) (rest : List WriteAnswer) (hrc : rc ≠ .error)
      (hn : p + n ≤ f.last) (hsent : SentTo bufs (f.busy ++ f.out) p n f.last bufs' c')
      (hw : conf.bufferSize ≤ conf.limit → c' ≠ [] → w = false) :
    Filtered conf bufs f p (bufs', { f with
      sent := f.sent ++ seg f.mem p (p + n), writeReady := w, saved := c', buffered := !c'.isEmpty }, rc, rest)

theorem ngxStreamWriteFilter_spec {conf : Conf} (answers : List WriteAnswer) {bufs : Nat → Buf} {f : Flow} {p : Nat}
    (hok : f.Ok conf bufs) (hcov : Covers bufs p (f.busy ++ f.out) f.last) (hnd : (f.busy ++ f.out).Nodup)
    (hchain : f.busy ++ f.out ≠ []) : Filtered conf bufs f p (ngxStreamWriteFilter conf answers bufs f) := by
  have hfailed : ¬ f.failed = true := by simp [hok.failed]
  have hzero : ¬ ((f.busy ++ f.out).any fun i => (bufs i).size = 0 && !(bufs i).special) = true := by
    simp only [List.any_eq_true, Bool.and_eq_true, decide_eq_true_eq, Bool.not_eq_true', not_exists, not_and]
    intro i hi hz
    simp [hcov.zeroSize i hi hz]
  rw [ngxStreamWriteFilter, if_neg hfailed]
  simp only [hok.saved]
  rw [if_neg hzero, hcov.sum_size]
  by_cases hempty : f.last - p = 0
  · -- nothing but flags: they count as sent
    have hp : p = f.last := by
      have := hcov.le
      omega
    rw [hp] at hcov
    have hflag : ((f.busy ++ f.out).any fun i => (bufs i).lastBuf || (bufs i).flush) = true := by
      obtain ⟨i, hi⟩ := List.exists_mem_of_ne_nil _ hchain
      exact List.any_eq_true.2 ⟨i, hi, by simp [(hcov.idle i hi).2]⟩
    rw [if_pos hempty, if_pos hflag]
    have hsent : SentTo bufs (f.busy ++ f.out) p 0 f.last bufs [] :=
      ⟨fun _ _ => rfl, hp, ⟨_, (List.append_nil _).symm, fun i hi => (hcov.idle i hi).size⟩, by simp [FrontFull],
        fun _ => rfl⟩
    have h : Filtered conf bufs f p _ := Filtered.sent bufs 0 f.writeReady [] .ok answers (by simp) hp.le hsent
      fun _ hne => absurd rfl hne
    simpa using h
  · rw [if_neg hempty]
    have hfront : FrontFull bufs (f.busy ++ f.out) := by
      intro i hi
      obtain ⟨c, hc⟩ := List.head?_eq_some_iff.1 hi
      rw [hc] at hcov
      rcases hcov with ⟨ht, hpos, hlt, -⟩ | ⟨-, he, -⟩
      · rw [size_of_temporary ht]
        omega
      · omega
    obtain ⟨n, w, hn, hf, hsome⟩ := (sendChain_spec conf answers (f := f) hcov hnd hfront).flow
    have hroom : 0 + (f.last - p) ≤ conf.bufferSize := by
      have := hok.room
      omega
    generalize sendChain conf answers bufs f (f.busy ++ f.out) = r at hf hsome
    obtain ⟨bufs', f', chain, rest⟩ := r
    simp only at hf hsome
    subst hf
    cases chain with
    | none => exact Filtered.failed bufs' n w rest hn
    | some c' =>
      obtain ⟨hsent, hw⟩ := hsome c' rfl
      have hw' := fun hlim : conf.bufferSize ≤ conf.limit => hw (hroom.trans hlim)
      cases c' with
      | nil => exact Filtered.sent bufs' n w [] .ok rest (by simp) hn hsent hw'
      | cons i c' => exact Filtered.sent bufs' n w (i :: c') .again rest (by simp) hn hsent hw'

/-- **The writing half of a round** (`if (do_write && dst)`). -/
theorem writeOut_spec {conf : Conf} {l : Loop} {o : Chain} (hok : l.flow.Ok conf l.pool.bufs)
    (hp : l.pool.Ok (l.flow.busy ++ l.flow.out ++ o)) : Written conf l o (writeOut conf l) := by
  obtain ⟨p, hcov, heq⟩ := hok.covers
  have hnd : (l.flow.busy ++ l.flow.out).Nodup := (List.nodup_append.1 (List.nodup_append.1 hp.nodup).2.1).1
  rw [writeOut]
  by_cases hnone : (l.flow.out.isEmpty && l.flow.busy.isEmpty && !l.flow.buffered) = true
  · simp only [if_pos hnone]
    simp only [Bool.and_eq_true, List.isEmpty_iff] at hnone
    exact ⟨rfl, Or.inl rfl, List.prefix_refl _, hok.sent_prefix, hok.alerts,
      fun _ => ⟨hok, hp, hnone.1.1, fun _ hne => absurd hnone.1.2 hne, fun _ _ => rfl⟩⟩
  · simp only [if_neg hnone]
    have hfil := ngxStreamWriteFilter_spec l.writes hok hcov hnd (hok.chain_ne_nil hnone)
    generalize ngxStreamWriteFilter conf l.writes l.pool.bufs l.flow = r at hfil
    cases hfil with
    | failed bufs' n w rest hn =>
      rw [if_pos rfl]
      refine ⟨rfl, Or.inr rfl, List.prefix_append _ _, ?_, hok.alerts, by simp⟩
      rw [← heq, ← seg_append _ (Nat.le_add_right p n) hn, ← List.append_assoc]
      exact List.prefix_append _ _
    | sent bufs' n w c' rc rest hrc hn hsent hw =>
      rw [if_neg hrc]
      exact written_of_sentTo hok hp rest heq hn hsent hw

/-! ## Reading -/

/-- Within the rate, there is room for a byte at least. -/
theorem limited_spec {rate : Nat} {elapsed : Int} {received size size' : Nat} (hsize : size ≠ 0)
    (h : limited rate elapsed received size = some size') :
    0 < size' ∧ size' ≤ size ∧ (rate ≠ 0 → (received + size' : Int) ≤ rate * (elapsed + 1)) := by
  rw [limited] at h
  by_cases hr : rate = 0
  · rw [if_pos hr] at h
    obtain rfl := Option.some.inj h
    exact ⟨by omega, le_rfl, fun h => absurd hr h⟩
  · rw [if_neg hr] at h
    generalize hlim : (rate : Int) * (elapsed + 1) - received = limit at h
    simp only at h
    split at h
    · cases h
    · split at h
      · obtain rfl := Option.some.inj h
        exact ⟨by omega, by omega, fun _ => by omega⟩
      · obtain rfl := Option.some.inj h
        exact ⟨by omega, le_rfl, fun _ => by omega⟩

/-- What a call of `recv` for `size` bytes gives: the next bytes of the stream, or its end. -/
structure Recvd (f : Flow) (size : Nat) (f' : Flow) (got : Bytes) : Prop where
  flow : ∃ ready eof error delayed, f' =
    { f with ready := ready, eof := eof, error := error, delayed := delayed, taken := f.taken + got.length }
  bytes : f.stream.take (f.taken + got.length) = f.stream.take f.taken ++ got
  fits : got.length ≤ size
  taken : f.taken + got.length ≤ f.stream.length
  ended : got = [] → f'.Ended
  eof : f.eof = false → f'.eof = true → got = []

theorem ngxUnixRecv_gave {f : Flow} {size n : Nat} {ready : Bool} (hsize : 0 < size)
    (htaken : f.taken ≤ f.stream.length)
    (hrc : (ngxUnixRecv f size (.gave n ready)).2.1 ≠ .again) :
    Recvd f size (ngxUnixRecv f size (.gave n ready)).1 (ngxUnixRecv f size (.gave n ready)).2.2 ∧
      (ngxUnixRecv f size (.gave n ready)).2.1 = .ok := by
  rw [ngxUnixRecv] at hrc ⊢
  generalize hd : f.stream.drop f.taken = rest at hrc ⊢
  cases rest with
  | nil =>
    have hlen : f.taken = f.stream.length := by
      have := List.drop_eq_nil_iff.1 hd
      omega
    by_cases hfin : f.fin = true
    · simp only [hfin, if_true]
      exact ⟨⟨⟨false, true, f.error, f.delayed, by simp [hfin]⟩, by simp, Nat.zero_le _, by simpa using htaken,
        fun _ => Or.inr ⟨rfl, hlen⟩, fun _ _ => rfl⟩, trivial⟩
    · simp only [hfin] at hrc
      exact absurd rfl hrc
  | cons b bs =>
    simp only
    generalize hg : (b :: bs).take (min (max 1 n) size) = got
    have hgot : got ≠ [] := by
      rw [← hg]
      simp only [ne_eq, List.take_eq_nil_iff, not_or]
      exact ⟨by omega, by simp⟩
    have hpre : got = (f.stream.drop f.taken).take got.length := by
      rw [hd, ← hg, List.length_take, ← List.take_eq_take_min]
    have hle : got.length ≤ f.stream.length - f.taken := by
      rw [← List.length_drop, hd, ← hg]
      exact (List.length_take_le' _ _)
    refine ⟨⟨⟨ready, f.eof, f.error, f.delayed, rfl⟩, ?_, ?_, by omega, fun h => absurd h hgot, ?_⟩, trivial⟩
    · rw [List.take_add, ← hpre]
    · rw [← hg]
      exact (List.length_take_le ..).trans (Nat.min_le_right ..)
    · intro h0 h1
      exact absurd (h0.symm.trans h1) (by simp)

theorem ngxUnixRecv_again {f : Flow} {size : Nat} {ans : RecvAnswer} (h : (ngxUnixRecv f size ans).2.1 = .again) :
    (ngxUnixRecv f size ans).1 = { f with ready := false } := by
  cases ans with
  | again => rfl
  | error => cases h
  | gave n ready =>
    simp only [ngxUnixRecv] at h ⊢
    split at h
    · split at h
      · cases h
      · rename_i hd hfin
        rw [if_neg hfin]
    · cases h

/-- Of a round that received: what came is in a new buf at the end of `*out`. -/
structure Appended (conf : Conf) (rate : Nat) (elapsed : Int) (p : Pool) (f : Flow) (o : Chain) (p' : Pool)
    (f' : Flow) :
    Prop where
  ok : f'.Ok conf p'.bufs
  pool : p'.Ok (f'.busy ++ f'.out ++ o)
  frame : ∀ i ∈ o, p'.bufs i = p.bufs i
  stream : f'.stream = f.stream
  fin : f'.fin = f.fin
  sent : f'.sent = f.sent
  busy : f'.busy = f.busy
  rate : rate ≠ 0 → (f'.received : Int) ≤ rate * (elapsed + 1)

inductive ReceivedAs (conf : Conf) (rate : Nat) (elapsed : Int) (p : Pool) (f : Flow) (o : Chain) : Received → Prop
  | stop (ready delayed : Bool) :
    ReceivedAs conf rate elapsed p f o (.stop { f with ready := ready, delayed := delayed })
  | noMemory (f' : Flow) (hsent : f'.sent = f.sent) (hstream : f'.stream = f.stream) (hfin : f'.fin = f.fin)
      (halerts : f'.alerts = []) (hrecv : f'.received = f.received) (hbusy : f'.busy = f.busy) :
    ReceivedAs conf rate elapsed p f o (.noMemory f')
  | again (p' : Pool) (f' : Flow) (h : Appended conf rate elapsed p f o p' f') :
    ReceivedAs conf rate elapsed p f o (.again p' f')

/-- The buf comes from the list of free bufs, or was never used. -/
theorem ngxChainGetFreeBuf_spec {alloc : Bool} {p p' : Pool} {i : Nat} {live : Chain} (hp : p.Ok live)
    (h : ngxChainGetFreeBuf alloc p = some (i, p')) : p'.bufs = p.bufs ∧ i ∉ live ∧ p'.Ok (i :: live) := by
  rw [ngxChainGetFreeBuf] at h
  split at h
  · rename_i j free hfree
    obtain ⟨rfl, rfl⟩ := Prod.mk.inj (Option.some.inj h)
    have hperm : (free ++ j :: live).Perm (p.free ++ live) := by
      rw [hfree]
      exact List.perm_middle
    refine ⟨rfl, ?_, hp.perm hperm rfl⟩
    have hnd := hp.nodup
    rw [hfree, List.cons_append, List.nodup_cons, List.mem_append, not_or] at hnd
    exact hnd.1.2
  · rename_i hfree
    split at h
    · obtain ⟨rfl, rfl⟩ := Prod.mk.inj (Option.some.inj h)
      have hnew : p.fresh ∉ live := fun hm => lt_irrefl _ (hp.bound _ (List.mem_append_right _ hm))
      refine ⟨rfl, hnew, ⟨?_, ?_⟩⟩
      · rw [hfree]
        exact List.nodup_cons.2 ⟨hnew, (List.nodup_append.1 hp.nodup).2.1⟩
      · intro j hj
        rw [hfree, List.nil_append, List.mem_cons] at hj
        rcases hj with rfl | hj
        · exact Nat.lt_succ_self _
        · exact (hp.bound j (List.mem_append_right _ hj)).trans (Nat.lt_succ_self _)
    · cases h

/-- The bytes of a call of `recv` as a buf of their own. -/
theorem append_spec {conf : Conf} {rate : Nat} {elapsed : Int} {p p' : Pool} {f f' : Flow} {o : Chain} {i size : Nat}
    {got : Bytes} (hok : f.Ok conf p.bufs) (herr : f.error = false)
    (hrecvd : Recvd f size f' got) (hsize : size ≤ conf.bufferSize - f.last)
    (hrate : rate ≠ 0 → (f.received + size : Int) ≤ rate * (elapsed + 1))
    (hbufs : p'.bufs = p.bufs) (hi : i ∉ f.busy ++ f.out ++ o) (hp' : p'.Ok (i :: (f.busy ++ f.out ++ o))) :
    Appended conf rate elapsed p f o (append p' f' i got).1 (append p' f' i got).2 := by
  obtain ⟨ready, eof, error, delayed, rfl⟩ := hrecvd.flow
  obtain ⟨q, hcov, heq⟩ := hok.covers
  have hfits := hrecvd.fits
  rw [List.mem_append, not_or] at hi
  generalize hbuf : (⟨f.last, f.last + got.length, !got.isEmpty, eof, true⟩ : Buf) = buf
  have hother : ∀ j ≠ i, Function.update p'.bufs i buf j = p.bufs j := fun j hj => by
    rw [Function.update_of_ne hj, hbufs]
  have hchain : ∀ j ∈ f.busy ++ f.out, Function.update p'.bufs i buf j = p.bufs j := fun j hj =>
    hother j fun he => hi.1 (he ▸ hj)
  have hnew : Function.update p'.bufs i buf i = buf := Function.update_self ..
  have hcov' : Covers (Function.update p'.bufs i buf) q (f.busy ++ f.out) f.last := hcov.congr hchain
  have happ : append p' { f with
        ready := ready, eof := eof, error := error, delayed := delayed, taken := f.taken + got.length } i got =
      ({ p' with bufs := Function.update p'.bufs i buf }, { f with
        ready := ready, eof := eof, error := error, delayed := delayed, taken := f.taken + got.length
        mem := write f.mem f.last got, out := f.out ++ [i], received := f.received + got.length
        last := f.last + got.length }) := by
    rw [append, ← hbuf]
  have hended : got = [] → Flow.Ended { f with error := error, taken := f.taken + got.length } := fun h => hrecvd.ended h
  -- where a buf without data waits there is nothing more to receive
  have hdata : got ≠ [] → ∀ j ∈ f.busy ++ f.out, (p.bufs j).temporary = true := by
    intro hgot j hj
    by_contra ht
    rcases hok.ended ⟨j, hj, by simpa using ht⟩ with h | ⟨-, h⟩
    · rw [herr] at h
      cases h
    · have h1 := hrecvd.taken
      have h2 := List.length_pos_of_ne_nil hgot
      omega
  rw [happ]
  refine ⟨⟨⟨q, ?_, ?_⟩, hok.saved, hok.buffered, ?_, ?_, hrecvd.taken, ?_, ?_, ?_, hok.failed, hok.alerts⟩, ?_, ?_, rfl,
    rfl, rfl, rfl, fun hr => ?_⟩
  · rw [← List.append_assoc]
    by_cases hgot : got = []
    · subst hgot
      refine hcov'.concat_idle ?_
      rw [hnew, ← hbuf]
      exact ⟨rfl, rfl⟩
    · have hlast : f.last + got.length = (Function.update p'.bufs i buf i).last := by rw [hnew, ← hbuf]
      rw [hlast]
      refine hcov'.concat (fun j hj => ?_) ?_ ?_ ?_
      · rw [hchain j hj]
        exact hdata hgot j hj
      · rw [hnew, ← hbuf]
        simpa using hgot
      · rw [hnew, ← hbuf]
      · rw [hnew, ← hbuf]
        have := List.length_pos_of_ne_nil hgot
        simp only
        omega
  · rw [seg_write_append _ _ hcov.le, ← List.append_assoc, heq, hrecvd.bytes]
  · intro j hj
    have hmem : j ∈ f.busy := List.mem_of_mem_head? hj
    simp only
    rw [hchain j (List.mem_append_left _ hmem)]
    exact hok.front j hj
  · have := hok.room
    simp only
    omega
  · simp only [hok.received]
  · rintro ⟨j, hj, ht⟩
    simp only at hj ht
    rw [← List.append_assoc, List.mem_append, List.mem_singleton] at hj
    by_cases hgot : got = []
    · exact hended hgot
    · rcases hj with hj | rfl
      · rw [hchain j hj, hdata hgot j hj] at ht
        cases ht
      · rw [hnew, ← hbuf] at ht
        exact absurd ht (by simpa using hgot)
  · intro he
    by_cases hgot : got = []
    · exact hended hgot
    · cases hf : f.eof with
      | false => exact absurd (hrecvd.eof hf he) hgot
      | true =>
        rcases hok.eof hf with h | ⟨-, h⟩
        · rw [herr] at h
          cases h
        · have h1 := hrecvd.taken
          have h2 := List.length_pos_of_ne_nil hgot
          omega
  · refine hp'.perm (List.Perm.append_left _ ?_) rfl
    rw [← List.append_assoc, List.append_assoc]
    exact List.perm_middle
  · intro j hj
    exact hother j fun he => hi.2 (he ▸ hj)
  · have h1 := hrate hr
    have h2 : (got.length : Int) ≤ size := by exact_mod_cast hfits
    simp only
    omega

/-- **The reading half of a round.** -/
theorem receive_spec {conf : Conf} (rate : Nat) (elapsed : Int) (alloc : Bool) {p : Pool} {f : Flow} {o : Chain}
    (ans : RecvAnswer) (hok : f.Ok conf p.bufs) (hpool : p.Ok (f.busy ++ f.out ++ o)) :
    ReceivedAs conf rate elapsed p f o (receive conf rate elapsed alloc p f ans) := by
  rw [receive]
  simp only
  split
  swap
  · exact .stop f.ready f.delayed
  rename_i hread
  simp only [Bool.and_eq_true, decide_eq_true_eq, Bool.not_eq_true', ne_eq] at hread
  obtain ⟨⟨⟨hsize, -⟩, -⟩, herr⟩ := hread
  split
  · exact .stop f.ready true
  rename_i size hlim
  obtain ⟨hpos, hle, hrate⟩ := limited_spec hsize hlim
  -- the call of recv, up to the flags of the event
  have hrecvd : (ngxUnixRecv f size ans).2.1 ≠ .again →
      ∀ delayed, Recvd f size { (if (ngxUnixRecv f size ans).2.1 = .error then
        { (ngxUnixRecv f size ans).1 with eof := true } else (ngxUnixRecv f size ans).1) with delayed := delayed }
        (ngxUnixRecv f size ans).2.2 := by
    intro hne delayed
    cases ans with
    | again => exact absurd rfl hne
    | error =>
      exact ⟨⟨false, true, true, delayed, rfl⟩, by simp [ngxUnixRecv], Nat.zero_le _, by simpa [ngxUnixRecv] using hok.taken,
        fun _ => Or.inl rfl, fun _ _ => rfl⟩
    | gave n ready =>
      obtain ⟨h, hrc⟩ := ngxUnixRecv_gave hpos hok.taken hne
      rw [if_neg (by simp [hrc])]
      obtain ⟨r, e, er, d, hf⟩ := h.flow
      exact ⟨⟨r, e, er, delayed, by rw [hf]⟩, h.bytes, h.fits, h.taken, h.ended, h.eof⟩
  split
  · rename_i hag
    rw [ngxUnixRecv_again hag]
    exact .stop false f.delayed
  rename_i hne
  have hgot := hrecvd hne
  generalize (ngxUnixRecv f size ans).2.2 = got at hgot ⊢
  generalize (if (ngxUnixRecv f size ans).2.1 = .error then
        { (ngxUnixRecv f size ans).1 with eof := true } else (ngxUnixRecv f size ans).1) = f₁ at hgot ⊢
  have hf' : ∃ d, (if rate ≠ 0 ∧ got.length * 1000 / rate > 0 then { f₁ with delayed := true } else f₁) =
      { f₁ with delayed := d } := by
    split
    · exact ⟨true, rfl⟩
    · exact ⟨f₁.delayed, rfl⟩
  obtain ⟨d, hd⟩ := hf'
  rw [hd]
  split
  · obtain ⟨r, e, er, d', hf⟩ := (hgot d).flow
    rw [hf]
    exact .noMemory _ rfl rfl rfl hok.alerts rfl rfl
  · rename_i i p' hfree
    obtain ⟨hbufs, hi, hp'⟩ := ngxChainGetFreeBuf_spec hpool hfree
    exact .again _ _ (append_spec hok herr (hgot d) hle hrate hbufs hi hp')

/-! ## The loop -/

/-- What a call of the loop leaves, `connected` saying whether there is a destination. -/
structure Looped (conf : Conf) (rate : Nat) (elapsed : Int) (connected doWrite : Bool) (l : Loop) (o : Chain)
    (r : Loop × Option Closed) : Prop where
  why : r.2 = none ∨ r.2 = some .writeError ∨ r.2 = some .internalServerError
  stream : r.1.flow.stream = l.flow.stream
  fin : r.1.flow.fin = l.flow.fin
  sent : l.flow.sent <+: r.1.flow.sent
  bounded : r.1.flow.sent <+: r.1.flow.stream
  alerts : r.1.flow.alerts = []
  rate : rate ≠ 0 → (r.1.flow.received : Int) ≤ max (l.flow.received : Int) (rate * (elapsed + 1))
  ok : r.2 = none → r.1.flow.Ok conf r.1.pool.bufs ∧ r.1.pool.Ok (r.1.flow.busy ++ r.1.flow.out ++ o) ∧
    ∀ i ∈ o, r.1.pool.bufs i = l.pool.bufs i
  flushed : r.2 = none → connected = true → (doWrite = true ∨ l.flow.out = [] ∧ l.flow.Waits conf) →
    r.1.flow.out = [] ∧ r.1.flow.Waits conf
  waiting : connected = false → r.1.flow.busy = l.flow.busy ∧ r.1.flow.sent = l.flow.sent

theorem Flow.Ok.bounded {conf : Conf} {bufs : Nat → Buf} {f : Flow} (h : f.Ok conf bufs) : f.sent <+: f.stream :=
  h.sent_prefix.trans (List.take_prefix _ _)

/-- A step of the loop that stops at the writing half. -/
theorem writeStep_spec {conf : Conf} (rate : Nat) (elapsed : Int) {l : Loop} {o : Chain} (doWrite connected : Bool)
    (hok : l.flow.Ok conf l.pool.bufs) (hp : l.pool.Ok (l.flow.busy ++ l.flow.out ++ o)) :
    Looped conf rate elapsed connected doWrite l o (writeStep conf doWrite connected l) ∧
      (writeStep conf doWrite connected l).1.flow.received = l.flow.received := by
  rw [writeStep]
  cases hdo : doWrite && connected with
  | true =>
    obtain ⟨-, hcon⟩ := Bool.and_eq_true_iff.1 hdo
    have hw := writeOut_spec hok hp
    rw [if_pos rfl]
    generalize writeOut conf l = w at hw ⊢
    obtain ⟨hstream, hfin, hrecv⟩ := reading_eq hw.reading
    refine ⟨⟨?_, hstream, hfin, hw.sent, ?_, hw.alerts, fun _ => ?_, fun h => ?_, fun h _ _ => ?_,
      fun h => ?_⟩, hrecv⟩
    · rcases hw.why with h | h
      · exact Or.inl h
      · exact Or.inr (Or.inl h)
    · rw [hstream]
      exact hw.bounded.trans (List.take_prefix _ _)
    · rw [hrecv]
      exact le_max_left _ _
    · obtain ⟨h1, h2, -, -, h5⟩ := hw.ok h
      exact ⟨h1, h2, h5⟩
    · obtain ⟨-, -, h3, h4, -⟩ := hw.ok h
      exact ⟨h3, h4⟩
    · rw [hcon] at h
      cases h
  | false =>
    rw [if_neg (by simp)]
    refine ⟨⟨Or.inl rfl, rfl, rfl, List.prefix_refl _, hok.bounded, hok.alerts, fun _ => le_max_left _ _,
      fun _ => ⟨hok, hp, fun _ _ => rfl⟩, fun _ hcon h => ?_, fun _ => ⟨rfl, rfl⟩⟩, rfl⟩
    rcases h with h | h
    · rw [h, hcon] at hdo
      cases hdo
    · exact h

section Rounds

variable {conf : Conf} {rate : Nat} {elapsed : Int} {connected doWrite : Bool} {l : Loop} {o : Chain}
  {w : Loop × Option Closed}

theorem Looped.stop (h : Looped conf rate elapsed connected doWrite l o w) (hnone : w.2 = none) (ready delayed : Bool) :
    Looped conf rate elapsed connected doWrite l o
      ({ w.1 with flow := { w.1.flow with ready := ready, delayed := delayed } }, none) := by
  obtain ⟨hok, hp, hframe⟩ := h.ok hnone
  exact ⟨Or.inl rfl, h.stream, h.fin, h.sent, h.bounded, h.alerts, h.rate,
    fun _ => ⟨hok.read ready delayed, hp, hframe⟩, fun _ => h.flushed hnone, h.waiting⟩

theorem Looped.noMemory (h : Looped conf rate elapsed connected doWrite l o w) {f' : Flow}
    (hsent : f'.sent = w.1.flow.sent) (hstream : f'.stream = w.1.flow.stream) (hfin : f'.fin = w.1.flow.fin)
    (halerts : f'.alerts = []) (hrecv : f'.received = w.1.flow.received) (hbusy : f'.busy = w.1.flow.busy) :
    Looped conf rate elapsed connected doWrite l o ({ w.1 with flow := f' }, some .internalServerError) := by
  refine ⟨Or.inr (Or.inr rfl), hstream.trans h.stream, hfin.trans h.fin, ?_, ?_, halerts, fun hr => ?_, by simp, by simp,
    fun hcon => ?_⟩
  · simp only [hsent]
    exact h.sent
  · simp only [hsent, hstream]
    exact h.bounded
  · simp only [hrecv]
    exact h.rate hr
  · simp only [hsent, hbusy]
    exact h.waiting hcon

theorem Looped.again (h : Looped conf rate elapsed connected doWrite l o w) (hnone : w.2 = none) {p' : Pool} {f' : Flow}
    (ha : Appended conf rate elapsed w.1.pool w.1.flow o p' f') {r : Loop × Option Closed}
    (hr : Looped conf rate elapsed connected true ⟨p', f', w.1.writes⟩ o r) :
    Looped conf rate elapsed connected doWrite l o r := by
  obtain ⟨-, -, hframe⟩ := h.ok hnone
  refine ⟨hr.why, hr.stream.trans (ha.stream.trans h.stream), hr.fin.trans (ha.fin.trans h.fin), ?_, hr.bounded, hr.alerts,
    fun hrate => ?_, fun hn => ?_, fun hn hcon _ => hr.flushed hn hcon (Or.inl rfl), fun hcon => ?_⟩
  · have hsent := hr.sent
    simp only [ha.sent] at hsent
    exact h.sent.trans hsent
  · have h1 := hr.rate hrate
    have h2 := ha.rate hrate
    simp only at h1
    exact h1.trans (max_le (h2.trans (le_max_right _ _)) (le_max_right _ _))
  · obtain ⟨h1, h2, h3⟩ := hr.ok hn
    exact ⟨h1, h2, fun i hi => (h3 i hi).trans ((ha.frame i hi).trans (hframe i hi))⟩
  · obtain ⟨hb, hs⟩ := hr.waiting hcon
    obtain ⟨hb', hs'⟩ := h.waiting hcon
    exact ⟨hb.trans (ha.busy.trans hb'), hs.trans (ha.sent.trans hs')⟩

end Rounds

theorem receive_again (conf : Conf) (rate : Nat) (elapsed : Int) (alloc : Bool) (p : Pool) (f : Flow) :
    ∃ f', receive conf rate elapsed alloc p f .again = .stop f' := by
  rw [receive]
  simp only
  split
  · split
    · exact ⟨_, rfl⟩
    · exact ⟨_, rfl⟩
  · exact ⟨_, rfl⟩

/-- **The loop.** By induction on the answers of `recv`. -/
theorem processLoop_spec {conf : Conf} (rate : Nat) (elapsed : Int) (alloc connected : Bool) (recvs : List RecvAnswer)
    (doWrite : Bool) {l : Loop} {o : Chain} (hok : l.flow.Ok conf l.pool.bufs)
    (hp : l.pool.Ok (l.flow.busy ++ l.flow.out ++ o)) :
    Looped conf rate elapsed connected doWrite l o (processLoop conf rate elapsed alloc connected recvs doWrite l) := by
  have hw := writeStep_spec rate elapsed doWrite connected hok hp
  cases recvs with
  | nil =>
    rw [processLoop]
    generalize writeStep conf doWrite connected l = w at hw ⊢
    simp only
    split
    · exact hw.1
    · rename_i hnone
      have hw2 : w.2 = none := by simpa using hnone
      obtain ⟨hok', hp', -⟩ := hw.1.ok hw2
      obtain ⟨f', hf'⟩ := receive_again conf rate elapsed alloc w.1.pool w.1.flow
      have hr := receive_spec rate elapsed alloc (o := o) .again hok' hp'
      rw [hf'] at hr ⊢
      cases hr with
      | stop ready delayed => exact hw.1.stop hw2 ready delayed
  | cons ans recvs =>
    rw [processLoop]
    generalize writeStep conf doWrite connected l = w at hw ⊢
    simp only
    split
    · exact hw.1
    · rename_i hnone
      have hw2 : w.2 = none := by simpa using hnone
      obtain ⟨hok', hp', -⟩ := hw.1.ok hw2
      have hr := receive_spec rate elapsed alloc (o := o) ans hok' hp'
      cases hrec : receive conf rate elapsed alloc w.1.pool w.1.flow ans with
      | stop f' =>
        rw [hrec] at hr
        cases hr with
        | stop ready delayed => exact hw.1.stop hw2 ready delayed
      | noMemory f' =>
        rw [hrec] at hr
        cases hr with
        | noMemory f' hsent hstream hfin halerts hrecv hbusy =>
          exact hw.1.noMemory hsent hstream hfin halerts hrecv hbusy
      | again p' f' =>
        rw [hrec] at hr
        cases hr with
        | again p' f' ha => exact hw.1.again hw2 ha (processLoop_spec rate elapsed alloc connected recvs true ha.ok ha.pool)

end NgxPlus.Socks5.Relay
