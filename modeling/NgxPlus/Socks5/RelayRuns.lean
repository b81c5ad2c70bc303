import NgxPlus.Socks5.RelayFlow

/-!
# The SOCKS5 relay: whole sessions

Both directions, and every order of events and of answers of the system calls.

`relay_fifo` is the purpose of the relay and `relay_bufs` why sharing memory does not endanger it;
`relay_disconnected`, `relay_rate` and `relay_waits` are about the end of a session, its limits
and its progress. All five rest on `Session.Inv`, which `step_inv` keeps.
-/

namespace NgxPlus.Socks5.Relay

open ByteMem Trace

/-! ## The invariant -/

def Session.chain (s : Session) (d : Bool) : Chain := (s.flow d).busy ++ (s.flow d).out

/-- Of an open session: both directions, over one pool. -/
structure Session.Core (conf : Conf) (s : Session) : Prop where
  flow : ∀ d, (s.flow d).Ok conf s.pool.bufs
  pool : s.pool.Ok (s.chain false ++ s.chain true)

/-- Nothing waits for a destination that is there, except where its kernel takes nothing. -/
def Session.Flushed (conf : Conf) (s : Session) (d : Bool) : Prop :=
  s.hasDst d = true → (s.flow d).out = [] ∧ (s.flow d).Waits conf

/-- Of a session that ended behind "disconnected". -/
def Session.Finished (s : Session) (d : Bool) : Prop :=
  (s.flow d).Ended ∧ ((s.flow !d).eof = true ∨ (s.flow d).sent = (s.flow d).stream.take (s.flow d).taken)

/-- Before the connect nothing was written, and nothing came from the upstream. -/
def Session.Early (s : Session) : Prop :=
  (s.flow false).busy = [] ∧ (s.flow false).sent = [] ∧ (s.flow true).busy = []

/-- `time` is as late as it has become so far. -/
def Session.Rated (conf : Conf) (time : Int) (s : Session) : Prop :=
  ∀ d, limitRate conf d ≠ 0 → ((s.flow d).received : Int) ≤ max 0 (limitRate conf d * (time - s.startSec + 1))

structure Session.Inv (conf : Conf) (time : Int) (s : Session) : Prop where
  safe : ∀ d, (s.flow d).sent <+: (s.flow d).stream
  rated : s.Rated conf time
  alerts : ∀ d, (s.flow d).alerts = []
  core : s.closed = none → s.Core conf
  flushed : s.closed = none → ∀ d, s.Flushed conf d
  early : s.closed = none → s.connected = false → s.Early
  finished : ∀ d, s.closed = some (.disconnected d) → s.Finished d

theorem Session.Core.pool_of {conf : Conf} {s : Session} (h : s.Core conf) (d : Bool) :
    s.pool.Ok (s.chain d ++ s.chain !d) := by
  cases d with
  | false => exact h.pool
  | true => exact h.pool.perm (List.perm_append_comm.append_left _) rfl

theorem Session.Core.of_pool {conf : Conf} {s : Session} (hf : ∀ d, (s.flow d).Ok conf s.pool.bufs) (d : Bool)
    (hp : s.pool.Ok (s.chain d ++ s.chain !d)) : s.Core conf := by
  cases d with
  | false => exact ⟨hf, hp⟩
  | true => exact ⟨hf, hp.perm (List.perm_append_comm.append_left _) rfl⟩

/-! ## One call of `ngx_stream_socks5_process` -/

section Process

variable {conf : Conf} {time : Int} {env : Env} {d doWrite : Bool} {s : Session}

theorem ne_not (d : Bool) : (!d) ≠ d := by cases d <;> simp

/-- The direction handled, and the other one. -/
theorem forall_flow {P : Bool → Prop} (d : Bool) (h : P d) (h' : P !d) : ∀ e, P e := by
  intro e
  cases d <;> cases e <;> first | exact h | exact h'

/-- What a call leaves: an open session is as it should be again. -/
theorem process_spec (htime : env.now ≤ time) (hrated : s.Rated conf time) (hopen : s.closed = none)
    (hcore : s.Core conf) (hother : s.Flushed conf !d)
    (hflush : doWrite = true ∨ s.Flushed conf d)
    (hearly : s.connected = false → s.Early) (hcond : d = true → s.connected = true) :
    (process conf env d doWrite s).Inv conf time := by
  have hloop := processLoop_spec (limitRate conf d) (env.now - s.startSec) env.alloc (s.hasDst d) env.recvs doWrite
    (l := ⟨s.pool, s.flow d, env.writes⟩) (o := s.chain !d) (hcore.flow d) (hcore.pool_of d)
  rw [process]
  generalize processLoop conf (limitRate conf d) (env.now - s.startSec) env.alloc (s.hasDst d) env.recvs doWrite
    ⟨s.pool, s.flow d, env.writes⟩ = r at hloop ⊢
  obtain ⟨l, why⟩ := r
  simp only
  have hne := ne_not d
  generalize hs' : ({ s with pool := l.pool, flow := Function.update s.flow d l.flow } : Session) = s'
  have hd : s'.flow d = l.flow := by
    rw [← hs']
    exact Function.update_self ..
  have hnd : s'.flow (!d) = s.flow !d := by
    rw [← hs']
    exact Function.update_of_ne hne _ _
  have hpool : s'.pool = l.pool := by rw [← hs']
  have hcon : s'.connected = s.connected := by rw [← hs']
  have hclosed : s'.closed = none := by
    rw [← hs']
    exact hopen
  have hsafe : ∀ e, (s'.flow e).sent <+: (s'.flow e).stream := forall_flow d (by rw [hd]; exact hloop.bounded)
    (by rw [hnd]; exact (hcore.flow !d).bounded)
  have halerts : ∀ e, (s'.flow e).alerts = [] := forall_flow d (by rw [hd]; exact hloop.alerts)
    (by rw [hnd]; exact (hcore.flow !d).alerts)
  have hrated' : s'.Rated conf time := by
    have hstart : s'.startSec = s.startSec := by rw [← hs']
    refine forall_flow d (fun hr => ?_) fun hr => ?_
    · rw [hd, hstart]
      have hmono : (limitRate conf d : Int) * (env.now - s.startSec + 1) ≤ limitRate conf d * (time - s.startSec + 1) :=
        Int.mul_le_mul_of_nonneg_left (by omega) (by omega)
      exact (hloop.rate hr).trans (max_le (hrated d hr) (hmono.trans (le_max_right _ _)))
    · rw [hnd, hstart]
      exact hrated (!d) hr
  -- a session closed for any other reason has nothing more to show
  have hshut : ∀ why, (∀ e, why ≠ .disconnected e) → Session.Inv conf time { s' with closed := some why } := fun why hw =>
    ⟨hsafe, hrated', halerts, by simp, by simp, by simp, fun e he => absurd (Option.some.inj he) (hw e)⟩
  cases why with
  | some why =>
    have hwhy : why = .writeError ∨ why = .internalServerError := by simpa using hloop.why
    rcases hwhy with rfl | rfl
    · exact hshut .writeError (by simp)
    · exact hshut .internalServerError (by simp)
  | none =>
    obtain ⟨hok, hp, hframe⟩ := hloop.ok rfl
    have hcore' : s'.Core conf := by
      refine Session.Core.of_pool (forall_flow d ?_ ?_) d ?_
      · rw [hd, hpool]
        exact hok
      · rw [hnd, hpool]
        exact (hcore.flow !d).congr hframe
      · rw [Session.chain, Session.chain, hd, hnd, hpool]
        exact hp
    have hflushed : ∀ e, s'.Flushed conf e := by
      refine forall_flow d ?_ ?_
      · intro hdst
        rw [hd]
        have hdst' : s.hasDst d = true := by simpa [Session.hasDst, hcon] using hdst
        refine hloop.flushed rfl hdst' ?_
        rcases hflush with h | h
        · exact Or.inl h
        · exact Or.inr (h hdst')
      · intro hdst
        rw [hnd]
        exact hother (by simpa [Session.hasDst, hcon] using hdst)
    have hearly' : s'.connected = false → s'.Early := by
      intro h
      rw [hcon] at h
      obtain ⟨hb, hse, ht⟩ := hearly h
      cases d with
      | false =>
        obtain ⟨hb', hse'⟩ := hloop.waiting (by simp [Session.hasDst, h])
        rw [Session.Early, hd, show s'.flow true = s.flow true from hnd]
        exact ⟨hb'.trans hb, hse'.trans hse, ht⟩
      | true =>
        rw [hcond rfl] at h
        cases h
    rw [finish]
    split
    · rename_i hend
      simp only [Bool.and_eq_true, Bool.or_eq_true, Bool.not_eq_true', hd, hnd] at hend
      obtain ⟨⟨heof, hdst⟩, hdone⟩ := hend
      refine ⟨hsafe, hrated', halerts, by simp, by simp, by simp, fun e he => ?_⟩
      obtain rfl : d = e := by simpa using he
      refine ⟨?_, ?_⟩
      · change (s'.flow d).Ended
        rw [hd]
        exact hok.eof heof
      · change (s'.flow !d).eof = true ∨ (s'.flow d).sent = (s'.flow d).stream.take (s'.flow d).taken
        rw [hnd, hd]
        refine hdone.imp id fun hbuf => ?_
        -- an empty chain: nothing is left in the buffer
        have hbusy : l.flow.busy = [] := by
          have hb : l.flow.buffered = !l.flow.busy.isEmpty := hok.buffered
          simpa [hb] using hbuf
        have hout : l.flow.out = [] := by
          have := (hflushed d hdst).1
          rwa [hd] at this
        obtain ⟨p, hcov, heq⟩ := hok.covers
        rw [hbusy, hout] at hcov
        obtain rfl : p = l.flow.last := hcov
        simpa using heq
    · split
      · exact ⟨hsafe, hrated', halerts, fun _ => hcore', fun _ => hflushed, fun _ => hearly', fun e he => by
          rw [hclosed] at he
          cases he⟩
      · exact hshut _ (by simp)

end Process

/-! ## One event -/

theorem modify_flow (s : Session) (d : Bool) (g : Flow → Flow) : (s.modify d g).flow d = g (s.flow d) :=
  Function.update_self ..

theorem modify_flow_not (s : Session) (d : Bool) (g : Flow → Flow) : (s.modify d g).flow (!d) = s.flow !d :=
  Function.update_of_ne (ne_not d) _ _

theorem Session.Inv.close {conf : Conf} {time : Int} {s : Session} (h : s.Inv conf time) {why : Closed}
    (hw : ∀ e, why ≠ .disconnected e) :
    Session.Inv conf time { s with closed := some why } :=
  ⟨h.safe, h.rated, h.alerts, by simp, by simp, by simp, fun e he => absurd (Option.some.inj he) (hw e)⟩

/-- What an event that is not processed leaves of a direction. -/
structure Flow.Kept (f f' : Flow) : Prop where
  sent : f'.sent = f.sent
  busy : f'.busy = f.busy
  out : f'.out = f.out
  alerts : f'.alerts = f.alerts
  received : f'.received = f.received
  stream : f.stream <+: f'.stream

theorem Session.Inv.modify {conf : Conf} {time : Int} {s : Session} (h : s.Inv conf time) (hopen : s.closed = none)
    (d : Bool)
    {g : Flow → Flow} (hk : (s.flow d).Kept (g (s.flow d)))
    (hok : (s.flow d).Ok conf s.pool.bufs → (g (s.flow d)).Ok conf s.pool.bufs)
    (hflush : s.Flushed conf d → (s.modify d g).Flushed conf d) : (s.modify d g).Inv conf time := by
  have hd := modify_flow s d g
  have hnd := modify_flow_not s d g
  have hchain : ∀ e, (s.modify d g).chain e = s.chain e := forall_flow d
    (by rw [Session.chain, hd, hk.busy, hk.out]; rfl) (by rw [Session.chain, hnd]; rfl)
  have hcore := h.core hopen
  refine ⟨forall_flow d ?_ ?_, forall_flow d ?_ ?_, forall_flow d ?_ ?_, fun _ => ⟨forall_flow d ?_ ?_, ?_⟩,
    fun _ => forall_flow d ?_ ?_, fun _ hcon => ?_, fun e he => ?_⟩
  · rw [hd, hk.sent]
    exact (h.safe d).trans hk.stream
  · rw [hnd]
    exact h.safe !d
  · rw [hd, hk.received]
    exact h.rated d
  · rw [hnd]
    exact h.rated !d
  · rw [hd, hk.alerts]
    exact h.alerts d
  · rw [hnd]
    exact h.alerts !d
  · rw [hd]
    exact hok (hcore.flow d)
  · rw [hnd]
    exact hcore.flow !d
  · rw [hchain, hchain]
    exact hcore.pool
  · exact hflush (h.flushed hopen d)
  · intro hdst
    rw [hnd]
    exact h.flushed hopen (!d) hdst
  · obtain ⟨hb, hs, ht⟩ := h.early hopen hcon
    cases d with
    | false =>
      rw [Session.Early, hd, hk.busy, hk.sent, show (s.modify false g).flow true = s.flow true from hnd]
      exact ⟨hb, hs, ht⟩
    | true =>
      rw [Session.Early, hd, hk.busy, show (s.modify true g).flow false = s.flow false from hnd]
      exact ⟨hb, hs, ht⟩
  · have : s.closed = some (.disconnected e) := he
    rw [hopen] at this
    cases this

/-- A change of the flags of the event that reads. -/
theorem Session.Inv.read {conf : Conf} {time : Int} {s : Session} (h : s.Inv conf time) (hopen : s.closed = none)
    (d : Bool)
    {g : Flow → Flow} (ready delayed : Bool)
    (hg : g (s.flow d) = { s.flow d with ready := ready, delayed := delayed }) :
    (s.modify d g).Inv conf time := by
  refine h.modify hopen d ?_ (fun hok => ?_) fun hf hdst => ?_
  · rw [hg]
    exact ⟨rfl, rfl, rfl, rfl, rfl, List.prefix_refl _⟩
  · rw [hg]
    exact hok.read ready delayed
  · rw [modify_flow, hg]
    exact hf hdst

/-- Bytes of the peer. -/
theorem Flow.Ok.arrive {conf : Conf} {bufs : Nat → Buf} {f : Flow} (h : f.Ok conf bufs) (hfin : ¬ f.fin = true)
    (bs : Bytes) :
    Flow.Ok conf bufs { f with stream := f.stream ++ bs } where
  covers := by
    obtain ⟨p, hc, heq⟩ := h.covers
    refine ⟨p, hc, ?_⟩
    simp only
    rw [heq, List.take_append_of_le_length h.taken]
  saved := h.saved
  buffered := h.buffered
  front := h.front
  room := h.room
  taken := by
    have := h.taken
    simp only [List.length_append]
    omega
  received := h.received
  ended := fun hi => Or.inl ((h.ended hi).resolve_right fun hr => hfin hr.1)
  eof := fun he => Or.inl ((h.eof he).resolve_right fun hr => hfin hr.1)
  failed := h.failed
  alerts := h.alerts

/-- The peer has sent everything. -/
theorem Flow.Ok.finish {conf : Conf} {bufs : Nat → Buf} {f : Flow} (h : f.Ok conf bufs) :
    Flow.Ok conf bufs { f with fin := true } where
  covers := h.covers
  saved := h.saved
  buffered := h.buffered
  front := h.front
  room := h.room
  taken := h.taken
  received := h.received
  ended := fun hi => (h.ended hi).imp id fun hr => ⟨rfl, hr.2⟩
  eof := fun he => (h.eof he).imp id fun hr => ⟨rfl, hr.2⟩
  failed := h.failed
  alerts := h.alerts

theorem Flow.Ok.writable {conf : Conf} {bufs : Nat → Buf} {f : Flow} (h : f.Ok conf bufs) :
    Flow.Ok conf bufs { f with writeReady := true } where
  covers := h.covers
  saved := h.saved
  buffered := h.buffered
  front := h.front
  room := h.room
  taken := h.taken
  received := h.received
  ended := h.ended
  eof := h.eof
  failed := h.failed
  alerts := h.alerts

/-- What a session needs when the loop is entered from a handler. -/
structure Session.Entered (conf : Conf) (time : Int) (d write : Bool) (s : Session) : Prop where
  opened : s.closed = none
  rated : s.Rated conf time
  core : s.Core conf
  other : s.Flushed conf !d
  flush : write = true ∨ s.Flushed conf d
  early : s.connected = false → s.Early

theorem Session.Inv.entered {conf : Conf} {time : Int} {s : Session} (h : s.Inv conf time) (hopen : s.closed = none)
    (d write : Bool) :
    s.Entered conf time d write :=
  ⟨hopen, h.rated, h.core hopen, h.flushed hopen !d, Or.inr (h.flushed hopen d), h.early hopen⟩

theorem Session.Inv.rearm {conf : Conf} {time : Int} {s : Session} (h : s.Inv conf time) (env : Env) :
    (rearm env s).Inv conf time := by
  rw [Relay.rearm]
  split
  · exact h
  · exact h.close (by simp)

/-- The client's writing side before the connect is the one case in which nothing is processed. -/
theorem Session.Entered.proceed {conf : Conf} {time : Int} {s : Session} {d write : Bool}
    (h : s.Entered conf time d write) {env : Env}
    (htime : env.now ≤ time) (hkeep : d = true → s.connected = false → s.Inv conf time) :
    (proceed conf env d write s).Inv conf time := by
  rw [Relay.proceed]
  split
  · rename_i hcond
    obtain ⟨hd, hcon⟩ := Bool.and_eq_true_iff.1 hcond
    exact hkeep hd (by simpa using hcon)
  · rename_i hcond
    refine process_spec htime h.rated h.opened h.core h.other h.flush h.early fun hd => ?_
    subst hd
    simpa using hcond

/-- The writing side of a connection is marked as ready. -/
theorem Session.Inv.entered_wake {conf : Conf} {time : Int} {s : Session} (h : s.Inv conf time)
    (hopen : s.closed = none) (d : Bool) :
    (s.modify d fun f => { f with writeReady := true }).Entered conf time d true := by
  have hd := modify_flow s d fun f => { f with writeReady := true }
  have hnd := modify_flow_not s d fun f => { f with writeReady := true }
  have hcore := h.core hopen
  refine ⟨hopen, forall_flow d ?_ ?_, ⟨forall_flow d ?_ ?_, ?_⟩, ?_, Or.inl rfl, fun hcon => ?_⟩
  · rw [hd]
    exact h.rated d
  · rw [hnd]
    exact h.rated !d
  · rw [hd]
    exact (hcore.flow d).writable
  · rw [hnd]
    exact hcore.flow !d
  · have hchain : ∀ e, (s.modify d fun f => { f with writeReady := true }).chain e = s.chain e := forall_flow d
      (by rw [Session.chain, hd]; rfl) (by rw [Session.chain, hnd]; rfl)
    rw [hchain, hchain]
    exact hcore.pool
  · intro hdst
    rw [hnd]
    exact h.flushed hopen (!d) hdst
  · obtain ⟨hb, hs, ht⟩ := h.early hopen hcon
    cases d with
    | false =>
      rw [Session.Early, hd, show (s.modify false fun f => { f with writeReady := true }).flow true = s.flow true from hnd]
      exact ⟨hb, hs, ht⟩
    | true =>
      rw [Session.Early, hd, show (s.modify true fun f => { f with writeReady := true }).flow false = s.flow false from hnd]
      exact ⟨hb, hs, ht⟩

/-- Before the connect the client's side may be marked: there is nothing to write. -/
theorem Session.Inv.wake_early {conf : Conf} {time : Int} {s : Session} (h : s.Inv conf time) (hopen : s.closed = none)
    (hcon : s.connected = false) : (s.modify true fun f => { f with writeReady := true }).Inv conf time := by
  refine h.modify hopen true ⟨rfl, rfl, rfl, rfl, rfl, List.prefix_refl _⟩ (fun hok => hok.writable) fun hf _ => ?_
  rw [modify_flow]
  exact ⟨(hf rfl).1, fun _ hne => absurd (h.early hopen hcon).2.2 hne⟩

theorem ite_inv {conf : Conf} {time : Int} {c : Prop} [Decidable c] {s s' : Session} (h : s.Inv conf time)
    (h' : s'.Inv conf time) :
    (if c then s else s').Inv conf time := by
  split
  · exact h
  · exact h'

theorem processConnection_timedout {conf : Conf} {time : Int} {s : Session} (h : s.Inv conf time)
    (hopen : s.closed = none) {env : Env}
    (htime : env.now ≤ time) (upstream write : Bool) :
    (processConnection conf env upstream write true s).Inv conf time := by
  have hmod : (s.modify (upstream != write) fun f => { f with delayed := false }).Inv conf time :=
    h.read hopen _ (s.flow (upstream != write)).ready false rfl
  simp only [processConnection, if_true]
  refine ite_inv (ite_inv ?_ ?_) ?_
  · exact (hmod.entered hopen _ write).proceed htime fun _ _ => hmod
  · exact hmod.rearm env
  · exact h.close (by simp)

theorem processConnection_spec {conf : Conf} {time : Int} {s : Session} {upstream write : Bool}
    (h : s.Entered conf time (upstream != write) write) {env : Env} (htime : env.now ≤ time)
    (hread : write = false → s.Inv conf time)
    (hkeep : (upstream != write) = true → s.connected = false → s.Inv conf time) :
    (processConnection conf env upstream write false s).Inv conf time := by
  simp only [processConnection, Bool.false_eq_true, if_false]
  split
  · rename_i hdel
    obtain ⟨hw, -⟩ := Bool.and_eq_true_iff.1 hdel
    exact (hread (by simpa using hw)).rearm env
  · exact h.proceed htime hkeep

theorem handler_inv {conf : Conf} {time : Int} {s : Session} (h : s.Inv conf time) (hopen : s.closed = none) {env : Env}
    (htime : env.now ≤ time) (upstream write : Bool) (wake : Wake) :
    (processConnection conf env upstream write (wake = .timedout) (s.wake upstream write wake)).Inv conf time := by
  cases wake with
  | timedout => exact processConnection_timedout h hopen htime upstream write
  | posted => exact processConnection_spec (h.entered hopen _ write) htime (fun _ => h) fun _ _ => h
  | ready =>
    cases write with
    | false =>
      have hmod : (s.modify (upstream != false) fun f => { f with ready := true }).Inv conf time :=
        h.read hopen _ true (s.flow (upstream != false)).delayed rfl
      exact processConnection_spec (hmod.entered hopen _ false) htime (fun _ => hmod) fun _ _ => hmod
    | true =>
      refine processConnection_spec (h.entered_wake hopen _) htime (fun hw => by cases hw) fun hd hcon => ?_
      rw [hd]
      exact h.wake_early hopen hcon

/-- The time at which an event is handled is not behind `time`. -/
def Event.Before (time : Int) : Event → Prop
  | .connected env | .handler _ _ _ env => env.now ≤ time
  | _ => True

/-- **What one event preserves.** -/
theorem step_inv {conf : Conf} {time : Int} {s : Session} {e : Event} (htime : e.Before time) (h : s.Inv conf time) :
    (step conf s e).Inv conf time := by
  unfold step
  split
  · exact h
  rename_i hclosed
  have hopen : s.closed = none := by simpa using hclosed
  cases e with
  | arrive upstream bs =>
    by_cases hfin : (s.flow upstream).fin = true
    · exact h.read hopen upstream (s.flow upstream).ready (s.flow upstream).delayed (if_pos hfin)
    · have hg : (if (s.flow upstream).fin then s.flow upstream else
          { s.flow upstream with stream := (s.flow upstream).stream ++ bs }) =
            { s.flow upstream with stream := (s.flow upstream).stream ++ bs } := if_neg hfin
      refine h.modify hopen upstream ?_ (fun hok => ?_) fun hf hdst => ?_
      · rw [hg]
        exact ⟨rfl, rfl, rfl, rfl, rfl, List.prefix_append _ _⟩
      · rw [hg]
        exact hok.arrive hfin bs
      · rw [modify_flow, hg]
        exact hf hdst
  | fin upstream =>
    refine h.modify hopen upstream ⟨rfl, rfl, rfl, rfl, rfl, List.prefix_refl _⟩ (fun hok => hok.finish) fun hf hdst => ?_
    rw [modify_flow]
    exact hf hdst
  | connected env =>
    refine ite_inv h ?_
    have hcore := h.core hopen
    exact process_spec (d := false) htime h.rated hopen ⟨hcore.flow, hcore.pool⟩ (h.flushed hopen true) (Or.inl rfl)
      (fun hcon => by cases hcon) (fun hd => by cases hd)
  | connectFailed =>
    exact ite_inv h (ite_inv (h.close (by simp)) (h.close (by simp)))
  | handler upstream write wake env =>
    exact ite_inv h (handler_inv h hopen htime upstream write wake)

theorem init_inv (conf : Conf) (time : Int) (st : Start) : (Session.init st).Inv conf time where
  safe _ := List.prefix_refl _
  rated _ _ := le_max_left _ _
  alerts _ := rfl
  core _ := by
    refine ⟨fun d => ⟨⟨0, rfl, by simp [Session.init, Flow.init]⟩, rfl, rfl, ?_, Nat.zero_le _, Nat.zero_le _, rfl, ?_, ?_,
      rfl, rfl⟩, ⟨List.nodup_nil, ?_⟩⟩
    · exact fun i hi => by cases hi
    · rintro ⟨i, hi, -⟩
      cases hi
    · exact fun he => by cases he
    · exact fun i hi => by cases hi
  flushed _ _ _ := ⟨rfl, fun _ hne => absurd rfl hne⟩
  early _ _ := ⟨rfl, rfl, rfl⟩
  finished _ he := by cases he

/-! ## Runs -/

/-! Nothing sets `u->start_sec`. -/

theorem startSec_process (conf : Conf) (env : Env) (d doWrite : Bool) (s : Session) :
    (process conf env d doWrite s).startSec = s.startSec := by
  rw [process]
  generalize processLoop conf (limitRate conf d) (env.now - s.startSec) env.alloc (s.hasDst d) env.recvs doWrite
    ⟨s.pool, s.flow d, env.writes⟩ = r
  cases hr : r.2 with
  | some why => rfl
  | none =>
    simp only [finish]
    split
    · rfl
    · split <;> rfl

theorem startSec_proceed (conf : Conf) (env : Env) (d write : Bool) (s : Session) :
    (proceed conf env d write s).startSec = s.startSec := by
  rw [proceed]
  split
  · rfl
  · exact startSec_process ..

theorem startSec_rearm (env : Env) (s : Session) : (rearm env s).startSec = s.startSec := by
  rw [rearm]
  split <;> rfl

theorem startSec_processConnection (conf : Conf) (env : Env) (upstream write timedout : Bool) (s : Session) :
    (processConnection conf env upstream write timedout s).startSec = s.startSec := by
  simp only [processConnection, apply_ite Session.startSec, startSec_proceed, startSec_rearm, Session.modify, ite_self]

theorem startSec_step (conf : Conf) (s : Session) (e : Event) : (step conf s e).startSec = s.startSec := by
  unfold step
  split
  · rfl
  · cases e with
    | arrive upstream bs => rfl
    | fin upstream => rfl
    | connected env =>
      simp only [apply_ite Session.startSec, initUpstream, startSec_process, ite_self]
    | connectFailed =>
      simp only [apply_ite Session.startSec, nextUpstream, ite_self]
    | handler upstream write wake env =>
      have hwake : (s.wake upstream write wake).startSec = s.startSec := by cases wake <;> rfl
      simp only [apply_ite Session.startSec, startSec_processConnection, hwake, ite_self]

section Runs

variable (conf : Conf) (st : Start)

/-- The session after the events. -/
def after (events : List Event) : Session := run (step conf) (.init st) events

theorem after_inv {time : Int} {events : List Event} (htime : ∀ e ∈ events, e.Before time) :
    (after conf st events).Inv conf time := by
  refine run_inv (step conf) (C := fun _ e => e.Before time) (fun _ _ h he => step_inv he h) (init_inv ..) ?_
  exact (always_iff _).2 fun as e bs he => htime e (by simp [he])

theorem startSec_after (events : List Event) : (after conf st events).startSec = st.startSec := by
  refine run_inv (step conf) (I := fun s => s.startSec = st.startSec) (C := fun _ _ => True) (fun s e h _ => ?_) rfl
    (always_of_forall _ (fun _ _ => trivial) _ _)
  rw [startSec_step, h]

theorem Event.before_mono {time time' : Int} (h : time ≤ time') {e : Event} (he : e.Before time) : e.Before time' := by
  cases e with
  | connected env => exact le_trans he h
  | handler upstream write wake env => exact le_trans he h
  | _ => trivial

/-- The events of a run have a latest time. -/
theorem exists_time (events : List Event) : ∃ time, ∀ e ∈ events, e.Before time := by
  induction events with
  | nil => exact ⟨0, by simp⟩
  | cons e events ih =>
    obtain ⟨time, h⟩ := ih
    obtain ⟨t, he⟩ : ∃ t, e.Before t := by
      cases e with
      | connected env => exact ⟨env.now, le_refl _⟩
      | handler upstream write wake env => exact ⟨env.now, le_refl _⟩
      | _ => exact ⟨0, trivial⟩
    refine ⟨max t time, List.forall_mem_cons.2 ⟨Event.before_mono (le_max_left _ _) he, fun e' he' => ?_⟩⟩
    exact Event.before_mono (le_max_right _ _) (h e' he')

/-! ## The results -/

/-- The bytes in flight. -/
def Session.pending (s : Session) (d : Bool) : Bytes := content s.pool.bufs (s.flow d).mem (s.chain d)

/-- What the one side has sent and the relay has taken is what the other side's kernel has, and
then what is in flight. -/
structure Session.Fifo (s : Session) (d : Bool) : Prop where
  sent : (s.flow d).sent <+: (s.flow d).stream
  inFlight : s.closed = none → (s.flow d).sent ++ s.pending d = (s.flow d).stream.take (s.flow d).taken

/-- **Every byte once and in order**, and nothing else is ever sent. -/
theorem relay_fifo (events : List Event) (d : Bool) : (after conf st events).Fifo d := by
  obtain ⟨time, htime⟩ := exists_time events
  have h := after_inv conf st htime
  refine ⟨h.safe d, fun hopen => ?_⟩
  obtain ⟨p, hcov, heq⟩ := ((h.core hopen).flow d).covers
  rw [Session.pending, Session.chain, hcov.content_eq, heq]

/-- Of the bufs with data: their ranges, in the buffer and behind each other. -/
structure Session.Apart (conf : Conf) (s : Session) (d : Bool) : Prop where
  inside : ∀ i ∈ s.chain d, (s.pool.bufs i).temporary = true →
    (s.pool.bufs i).pos < (s.pool.bufs i).last ∧ (s.pool.bufs i).last ≤ (s.flow d).last ∧
    (s.flow d).last ≤ conf.bufferSize
  behind : (s.chain d).Pairwise fun i j =>
    (s.pool.bufs i).temporary = true → (s.pool.bufs j).temporary = true → (s.pool.bufs i).last ≤ (s.pool.bufs j).pos

/-- **No buf is in use twice**, although both directions take theirs from one list; what is in
flight lies in front of `b->last`, where `recv` writes; and the write filter never meets a chain
that it would complain about. -/
theorem relay_bufs (events : List Event) :
    (∀ d, ((after conf st events).flow d).alerts = []) ∧
      ((after conf st events).closed = none →
        ((after conf st events).pool.free ++
          ((after conf st events).chain false ++ (after conf st events).chain true)).Nodup ∧
        ∀ d, (after conf st events).Apart conf d) := by
  obtain ⟨time, htime⟩ := exists_time events
  have h := after_inv conf st htime
  refine ⟨h.alerts, fun hopen => ⟨(h.core hopen).pool.nodup, fun d => ?_⟩⟩
  have hok := (h.core hopen).flow d
  obtain ⟨p, hcov, -⟩ := hok.covers
  obtain ⟨hin, hpair⟩ := hcov.ranges
  refine ⟨fun i hi ht => ?_, hpair⟩
  obtain ⟨-, h1, h2⟩ := hin i hi ht
  exact ⟨h1, h2, hok.room⟩

/-- **A session that ends because one side has sent everything has passed everything on**, unless
that side was lost to an error or the other one has sent everything too. -/
theorem relay_disconnected (events : List Event) (d : Bool)
    (hclosed : (after conf st events).closed = some (.disconnected d))
    (herr : ((after conf st events).flow d).error = false) (hother : ((after conf st events).flow !d).eof = false) :
    ((after conf st events).flow d).fin = true ∧
      ((after conf st events).flow d).sent = ((after conf st events).flow d).stream := by
  obtain ⟨time, htime⟩ := exists_time events
  obtain ⟨hended, hdone⟩ := (after_inv conf st htime).finished d hclosed
  rcases hended with h | ⟨hfin, htaken⟩
  · rw [herr] at h
    cases h
  rcases hdone with h | h
  · rw [hother] at h
    cases h
  · rw [h, htaken]
    exact ⟨hfin, List.take_length⟩

/-- **The rate limits**: at no time has a side sent more than its rate allows for the seconds that
have begun. -/
theorem relay_rate (events : List Event) (time : Int) (htime : ∀ e ∈ events, e.Before time) (d : Bool)
    (hrate : limitRate conf d ≠ 0) :
    (((after conf st events).flow d).received : Int) ≤ max 0 (limitRate conf d * (time - st.startSec + 1)) := by
  have h := (after_inv conf st htime).rated d hrate
  rwa [startSec_after] at h

/-- **No byte waits without reason**: what is in flight to a side that is there waits for its
kernel, which has said that it takes no more. -/
theorem relay_waits (events : List Event) (hlimit : conf.bufferSize ≤ conf.limit)
    (hopen : (after conf st events).closed = none) (d : Bool) (hdst : (after conf st events).hasDst d = true)
    (hpending : (after conf st events).pending d ≠ []) : ((after conf st events).flow d).writeReady = false := by
  obtain ⟨time, htime⟩ := exists_time events
  obtain ⟨hout, hwaits⟩ := (after_inv conf st htime).flushed hopen d hdst
  refine hwaits hlimit fun hbusy => hpending ?_
  rw [Session.pending, Session.chain, hbusy, hout]
  rfl

end Runs

/-! ## A session -/

/-- Buffers of four bytes, and three bytes a second from the client. -/
def fourBytesConf : Conf := ⟨4, 3, 0, 100⟩

def fourBytesStart : Start := ⟨0, fun _ => Stream'.const 0, fun _ => ⟨0, 0, false, false, false⟩, fun _ => false, fun _ => true⟩

/-- An event at which nothing can be read. -/
def quiet : Env := ⟨0, [], [], true, true⟩

/-- The client sends five bytes. Three are received in the first second, of which the upstream takes one. -/
def fiveBytes : List Event :=
  [.connected quiet, .arrive false [7, 8, 9, 10, 11],
    .handler false false .ready ⟨0, [.gave 9 true], [.took 1], true, true⟩]

/-- Later the upstream takes the rest; the client has sent everything. -/
def fiveBytesEnd : List Event :=
  fiveBytes ++ [.fin false, .handler true true .ready ⟨1, [], [.took 9], true, true⟩,
    .handler false false .timedout ⟨1, [.gave 9 true], [.took 9], true, true⟩,
    .handler false false .timedout ⟨2, [.gave 1 true], [], true, true⟩]

theorem relay_waits_fiveBytes : ((after fourBytesConf fourBytesStart fiveBytes).flow false).writeReady = false :=
  relay_waits fourBytesConf fourBytesStart fiveBytes (by decide) (by decide +kernel) false (by decide +kernel)
    (by decide +kernel)

theorem relay_rate_fiveBytes : (((after fourBytesConf fourBytesStart fiveBytes).flow false).received : Int) ≤
    max 0 (limitRate fourBytesConf false * (0 - 0 + 1)) :=
  relay_rate fourBytesConf fourBytesStart fiveBytes 0 (by simp [fiveBytes, quiet, Event.Before]) false (by decide)

theorem relay_disconnected_fiveBytes : ((after fourBytesConf fourBytesStart fiveBytesEnd).flow false).fin = true ∧
    ((after fourBytesConf fourBytesStart fiveBytesEnd).flow false).sent =
      ((after fourBytesConf fourBytesStart fiveBytesEnd).flow false).stream :=
  relay_disconnected fourBytesConf fourBytesStart fiveBytesEnd false (by decide +kernel) (by decide +kernel)
    (by decide +kernel)

end NgxPlus.Socks5.Relay
