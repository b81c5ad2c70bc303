import NgxPlus.Diversion.Exec
import NgxPlus.Diversion.System

/-!
# Readers against the writer

`diversion_exec_policy` runs in every worker without the mutex: it reads `status`, adds one to
`lock`, reads the table and subtracts one. `diversion_decode_runtimeinfo` runs under the
mutex, in one worker at a time: it clears `status`, tests `lock` and frees. Here each of these
is a step of its own and they interleave freely.

| step | there |
| --- | --- |
| `check`, `inc`, `read`, `dec` | `.cpp:1842-1870` and the four exits; `read` stands for all reads of the table |
| `enter`                  | `ngx_shmtx_lock` and the tests on version and status (`.cpp:1240-1258`) |
| `write`                  | the writer's next step: one per `WriterPc` |
| `activate`               | `active_policy`, which takes the mutex |
| `exitWorker`             | `ngx_lua_diversion_exit_worker` (`.cpp:197-208`): `lock = 0` |
| `reload`                 | the reload branch of `ngx_http_lua_diversion_init_sysconf_zone` (`.cpp:268-286`): `lock = 0` |

A step that is not possible leaves the state as it is. `writer_alone` and `reader_alone`: the
steps of one party in a row are the function that `Runtime` and `Exec` model.

A request that has read `status` and not yet counted itself is invisible to the writer, a
reset forgets those that counted themselves, and the failure label frees the hosts whoever
reads. `Careful` excludes these; `readers_never_overlap_free` is the law without them and
`free_under_checked_reader` a run into the first.
-/

namespace NgxPlus.Diversion

open ByteMem Decode Trace

/-! ## The system -/

/-- Where a worker is in `diversion_exec_policy`. -/
inductive ReaderPc
  | idle
  /-- The status was read and found to be 2 or more. -/
  | checked
  | holding
deriving DecidableEq, Repr

/-- Where the holder of the mutex is in `diversion_decode_runtimeinfo`. -/
inductive WriterPc
  | idle
  | zero (m : Dec)
  | testLock (m : Dec)
  | freePolicy (m : Dec)
  | freeHosts (m : Dec)
  | testAgain (m : Dec)
  | install (m : Dec) (b : RuntimeBody) (d : Dec)
  /-- At the label `diversion_decode_runtimeinfo_failure`. -/
  | failure

structure Conc where
  shm : Shm
  readers : List ReaderPc
  writer : WriterPc

inductive Act
  | check (i : Nat)
  | inc (i : Nat)
  | read (i : Nat)
  | dec (i : Nat)
  | enter (m : Dec)
  | write
  | activate (ver : Nat)
  | exitWorker (i : Nat)
  | reload

def WriterPc.isIdle : WriterPc → Bool
  | .idle => true
  | _ => false

def Conc.moveTo (c : Conc) (i : Nat) (r : ReaderPc) (lock : UInt64) : Conc :=
  { c with shm := { c.shm with lock := lock }, readers := c.readers.set i r }

theorem moveTo_moveTo (c : Conc) (i : Nat) (r r' : ReaderPc) (l l' : UInt64) :
    (c.moveTo i r l).moveTo i r' l' = c.moveTo i r' l' := by
  simp [Conc.moveTo]

theorem getElem?_moveTo (c : Conc) {i : Nat} (h : i < c.readers.length) (r : ReaderPc) (l : UInt64) :
    (c.moveTo i r l).readers[i]? = some r := by
  simp [Conc.moveTo, h]

def enterStep (s : Shm) (m : Dec) : Shm × WriterPc :=
  match runtimeGate s (msgStatus m) (msgVersion m) with
  | .same =>
    ({ s with status := if s.status = -1 then toInt16 (msgStatus m) else s.status,
              version := msgVersion m }, .idle)
  | .refuse => (s, .failure)
  | .replace => if s.version > 0 then (s, .zero m) else (s, .testAgain m)

def writerStep (s : Shm) : WriterPc → Shm × WriterPc
  | .idle => (s, .idle)
  | .zero m => ({ s with status := 0 }, .testLock m)
  | .testLock m => if s.lock > 0 then (s, .idle) else (s, .freePolicy m)
  | .freePolicy m => (freeDiversionPolicy s, .freeHosts m)
  | .freeHosts m => (freeDiversionEnvhosts s, .testAgain m)
  | .testAgain m =>
    if s.lock > 0 then (s, .failure)
    else match readRuntimeBody (msgBody m) with
      | .error _ => (s, .failure)
      | .ok (b, d) => (s, .install m b d)
  | .install m b d => (installRuntime s (msgStatus m) (msgVersion m) b d, .idle)
  | .failure => (freeDiversionEnvhosts s, .idle)

def Conc.wrote (c : Conc) (r : Shm × WriterPc) : Conc := { c with shm := r.1, writer := r.2 }

def concStep (c : Conc) : Act → Conc
  | .check i => if c.readers[i]? = some .idle ∧ 2 ≤ c.shm.status then c.moveTo i .checked c.shm.lock else c
  | .inc i => if c.readers[i]? = some .checked then c.moveTo i .holding (c.shm.lock + 1) else c
  | .read _ => c
  | .dec i => if c.readers[i]? = some .holding then c.moveTo i .idle (c.shm.lock - 1) else c
  | .enter m => if c.writer.isIdle then c.wrote (enterStep c.shm m) else c
  | .write => c.wrote (writerStep c.shm c.writer)
  | .activate ver => if c.writer.isIdle then { c with shm := (activePolicy c.shm ver).2 } else c
  | .exitWorker i =>
    if c.readers[i]? = some .idle then { c with shm := { c.shm with lock := 0 } } else c
  | .reload => { c with shm := { c.shm with lock := 0 } }

/-- `n` workers, none of them in a request, over a fresh zone. -/
def concInit (n : Nat) (hasBitset : Bool) : Conc :=
  ⟨initialState hasBitset, List.replicate n .idle, .idle⟩

/-! ## One party alone -/

theorem run_write_idle (s : Shm) (rs : List ReaderPc) (n : Nat) :
    run concStep ⟨s, rs, .idle⟩ (List.replicate n .write) = ⟨s, rs, .idle⟩ := by
  induction n with
  | zero => rfl
  | succ n ih => exact ih

theorem run_write_failure (s : Shm) (rs : List ReaderPc) (n : Nat) :
    run concStep ⟨s, rs, .failure⟩ (List.replicate (n + 1) .write) =
      ⟨freeDiversionEnvhosts s, rs, .idle⟩ :=
  run_write_idle _ rs n

theorem run_write_testAgain (s : Shm) (rs : List ReaderPc) (m : Dec) (n : Nat) :
    run concStep ⟨s, rs, .testAgain m⟩ (List.replicate (n + 2) .write) =
      ⟨(finishRuntimeinfo s (msgStatus m) (msgVersion m) (msgBody m)).2, rs, .idle⟩ := by
  rw [List.replicate_succ, run_cons]
  simp only [concStep, writerStep, Conc.wrote, finishRuntimeinfo]
  split
  · exact run_write_failure s rs n
  · cases readRuntimeBody (msgBody m) with
    | error e => exact run_write_failure s rs n
    | ok r => exact run_write_idle _ rs n

theorem run_write_freePolicy (s : Shm) (rs : List ReaderPc) (m : Dec) :
    run concStep ⟨s, rs, .freePolicy m⟩ (List.replicate 4 .write) =
      ⟨(finishRuntimeinfo (freeDiversionEnvhosts (freeDiversionPolicy s)) (msgStatus m) (msgVersion m)
        (msgBody m)).2, rs, .idle⟩ := by
  rw [List.replicate_succ, run_cons, List.replicate_succ, run_cons]
  exact run_write_testAgain (freeDiversionEnvhosts (freeDiversionPolicy s)) rs m 0

/-- The writer's steps with nobody between them are the function of `Runtime`. -/
theorem writer_alone (s : Shm) (rs : List ReaderPc) (m : Dec) :
    run concStep ⟨s, rs, .idle⟩ (.enter m :: List.replicate 6 .write) =
      ⟨(diversionDecodeRuntimeinfo s m).2, rs, .idle⟩ := by
  rw [run_cons]
  cases hg : runtimeGate s (msgStatus m) (msgVersion m) with
  | same =>
    simp only [concStep, WriterPc.isIdle, if_true, enterStep, hg, Conc.wrote, diversionDecodeRuntimeinfo]
    exact run_write_idle _ rs 6
  | refuse =>
    simp only [concStep, WriterPc.isIdle, if_true, enterStep, hg, Conc.wrote, diversionDecodeRuntimeinfo]
    exact run_write_failure s rs 5
  | replace =>
    simp only [concStep, WriterPc.isIdle, if_true, enterStep, hg, Conc.wrote, diversionDecodeRuntimeinfo,
      makeRoom]
    by_cases hv : s.version > 0
    · simp only [hv, if_true, true_and]
      rw [List.replicate_succ, run_cons, List.replicate_succ, run_cons]
      by_cases hl : s.lock > 0
      · simp only [concStep, writerStep, Conc.wrote, hl, if_true]
        exact run_write_idle { s with status := 0 } rs 4
      · simp only [concStep, writerStep, Conc.wrote, hl, if_false]
        exact run_write_freePolicy { s with status := 0 } rs m
    · simp only [hv, if_false, false_and]
      exact run_write_testAgain s rs m 4

/-- The engine gives `lock` back whenever it returns. -/
theorem lock_diversionExecPolicy (divEnv : Bytes) (s : Shm) (u : DivUserInfo)
    (h : (∃ k out, (diversionExecPolicy divEnv s u).1 = .ok k out) ∨
      (diversionExecPolicy divEnv s u).1 = .error) :
    (diversionExecPolicy divEnv s u).2 = s.lock := by
  unfold diversionExecPolicy at h ⊢
  by_cases hs : s.status < 2
  · rw [if_pos hs]
  · rw [if_neg hs] at h ⊢
    simp only at h ⊢
    cases he : execGroups divEnv s u 0 s.policyGroup with
    | ok i out => simp
    | error => simp
    | segv => simp [he] at h
    | hang => simp [he] at h

/-- A request's steps with nobody between them leave what `diversion_exec_policy` leaves when
it returns. -/
theorem reader_alone (divEnv : Bytes) (u : DivUserInfo) (c : Conc) (i : Nat)
    (hi : c.readers[i]? = some .idle)
    (h : (∃ k out, (diversionExecPolicy divEnv c.shm u).1 = .ok k out) ∨
      (diversionExecPolicy divEnv c.shm u).1 = .error) :
    run concStep c [.check i, .inc i, .read i, .dec i] =
      { c with shm := { c.shm with lock := (diversionExecPolicy divEnv c.shm u).2 } } := by
  obtain ⟨hlen, hget⟩ := List.getElem?_eq_some_iff.1 hi
  rw [lock_diversionExecPolicy divEnv c.shm u h]
  have hset : c.readers.set i .idle = c.readers := by rw [← hget, List.set_getElem_self]
  by_cases hs : 2 ≤ c.shm.status
  · have h1 : concStep c (.check i) = c.moveTo i .checked c.shm.lock := if_pos ⟨hi, hs⟩
    have h2 : concStep (c.moveTo i .checked c.shm.lock) (.inc i) =
        (c.moveTo i .checked c.shm.lock).moveTo i .holding (c.shm.lock + 1) :=
      if_pos (getElem?_moveTo c hlen _ _)
    have h3 : concStep (c.moveTo i .holding (c.shm.lock + 1)) (.dec i) =
        (c.moveTo i .holding (c.shm.lock + 1)).moveTo i .idle (c.shm.lock + 1 - 1) :=
      if_pos (getElem?_moveTo c hlen _ _)
    rw [run_cons, h1, run_cons, h2, moveTo_moveTo, run_cons, run_cons]
    change run concStep (concStep (c.moveTo i .holding (c.shm.lock + 1)) (.dec i)) [] = _
    rw [h3, moveTo_moveTo]
    simp [Conc.moveTo, hset]
  · have h1 : concStep c (.check i) = c := if_neg fun h => hs h.2
    have h2 : concStep c (.inc i) = c := if_neg (by simp [hi])
    have h3 : concStep c (.dec i) = c := if_neg (by simp [hi])
    rw [run_cons, h1, run_cons, h2, run_cons, run_cons]
    exact h3

/-! ## The law -/

/-- The step runs `free_diversion_policy` or `free_diversion_envhosts`. -/
def Frees (c : Conc) (a : Act) : Prop :=
  a = .write ∧ match c.writer with
    | .freePolicy _ | .freeHosts _ | .failure => True
    | _ => False

/-- Along the run, `lock` counts the requests between increment and decrement, and nothing is
freed while a request is between its check and its decrement. -/
structure NoOverlap (c₀ : Conc) (as : List Act) : Prop where
  lock : ∀ pre post, as = pre ++ post →
    (run concStep c₀ pre).shm.lock.toNat = (run concStep c₀ pre).readers.count .holding
  free : ∀ pre a post, as = pre ++ a :: post → Frees (run concStep c₀ pre) a →
    ∀ r ∈ (run concStep c₀ pre).readers, r = .idle

/-- No request is in flight, and none can start. -/
def Quiet (c : Conc) : Prop := c.shm.status < 2 ∧ ∀ r ∈ c.readers, r = .idle

/-- What the code does not make sure of: a reset meets no counted request, the test that finds
`lock` 0 meets no request that is about to count itself, and a jump to the failure label
happens in quiet. -/
def Careful (c : Conc) : Act → Prop
  | .exitWorker i => c.readers[i]? = some .idle → .holding ∉ c.readers
  | .reload => .holding ∉ c.readers
  | .enter m =>
    c.writer.isIdle → runtimeGate c.shm (msgStatus m) (msgVersion m) = .refuse → Quiet c
  | .write =>
    match c.writer with
    | .testLock _ => c.shm.lock = 0 → .checked ∉ c.readers
    | .testAgain m => c.shm.lock > 0 ∨ (readRuntimeBody (msgBody m)).isOk = false → Quiet c
    | _ => True
  | _ => True

/-- What the position of the writer says about the rest. -/
def WriterInv (c : Conc) : Prop :=
  match c.writer with
  | .testLock _ => c.shm.status = 0
  | .freePolicy _ | .freeHosts _ | .failure => Quiet c
  | _ => True

structure ReadersInv (c : Conc) : Prop where
  bound : c.readers.length < 2 ^ 64
  lock : c.shm.lock.toNat = c.readers.count .holding
  writer : WriterInv c

/-! ### The counter -/

theorem toNat_add_one {l : UInt64} (h : l.toNat + 1 < 2 ^ 64) : (l + 1).toNat = l.toNat + 1 := by
  rw [UInt64.toNat_add]
  exact Nat.mod_eq_of_lt h

theorem toNat_sub_one {l : UInt64} (h : 0 < l.toNat) : (l - 1).toNat = l.toNat - 1 := by
  have hle : (1 : UInt64) ≤ l := UInt64.le_iff_toNat_le.2 h
  rw [UInt64.toNat_sub_of_le _ _ hle]
  rfl

theorem count_set_of {c : Conc} {i : Nat} {old : ReaderPc} (h : c.readers[i]? = some old)
    (new : ReaderPc) :
    (c.readers.set i new).count .holding =
      c.readers.count .holding - (if old = .holding then 1 else 0) + (if new = .holding then 1 else 0) := by
  obtain ⟨hlen, hget⟩ := List.getElem?_eq_some_iff.1 h
  rw [List.count_set hlen, hget]
  simp

theorem count_pos_of {c : Conc} {i : Nat} (h : c.readers[i]? = some .holding) :
    0 < c.readers.count .holding :=
  List.count_pos_iff.2 (List.mem_of_getElem? h)

@[simp] theorem lock_writerStep (s : Shm) (w : WriterPc) : (writerStep s w).1.lock = s.lock := by
  cases w <;> simp only [writerStep]
  case testLock => split <;> rfl
  case testAgain m =>
    split
    · rfl
    · split <;> rfl
  all_goals rfl

@[simp] theorem lock_enterStep (s : Shm) (m : Dec) : (enterStep s m).1.lock = s.lock := by
  unfold enterStep
  split
  · rfl
  · rfl
  · split <;> rfl

@[simp] theorem lock_activePolicy (s : Shm) (ver : Nat) : (activePolicy s ver).2.lock = s.lock := by
  rcases activePolicy_cases s ver with h | ⟨-, -, h⟩ <;> rw [h]

/-- The counter counts the requests that hold one. -/
def Counted (c : Conc) : Prop := c.shm.lock.toNat = c.readers.count .holding

theorem counted_check {c : Conc} (h : Counted c) {i : Nat} (hi : c.readers[i]? = some .idle) :
    Counted (c.moveTo i .checked c.shm.lock) := by
  unfold Counted at h ⊢
  simp only [Conc.moveTo, count_set_of hi]
  simpa using h

/-- The counter cannot wrap: the request that increments it is not counted yet. -/
theorem counted_inc {c : Conc} (h : Counted c) (hb : c.readers.length < 2 ^ 64) {i : Nat}
    (hi : c.readers[i]? = some .checked) : Counted (c.moveTo i .holding (c.shm.lock + 1)) := by
  unfold Counted at h ⊢
  have hcs := count_set_of hi .holding
  simp only [reduceCtorEq, if_false, if_true, Nat.sub_zero] at hcs
  have hle : (c.readers.set i .holding).count .holding ≤ (c.readers.set i .holding).length :=
    List.count_le_length
  rw [hcs, List.length_set] at hle
  simp only [Conc.moveTo, hcs]
  rw [toNat_add_one (by omega), h]

theorem counted_dec {c : Conc} (h : Counted c) {i : Nat} (hi : c.readers[i]? = some .holding) :
    Counted (c.moveTo i .idle (c.shm.lock - 1)) := by
  unfold Counted at h ⊢
  have hpos := count_pos_of hi
  simp only [Conc.moveTo, count_set_of hi]
  rw [toNat_sub_one (by omega), h]
  simp

/-- Every step keeps the number of workers and the meaning of the counter. -/
theorem counter_step {c : Conc} (h : ReadersInv c) {a : Act} (ha : Careful c a) :
    (concStep c a).readers.length = c.readers.length ∧ Counted (concStep c a) := by
  have hlock : Counted c := h.lock
  cases a with
  | check i =>
    simp only [concStep]
    split
    · rename_i hi
      exact ⟨List.length_set, counted_check hlock hi.1⟩
    · exact ⟨rfl, hlock⟩
  | inc i =>
    simp only [concStep]
    split
    · rename_i hi
      exact ⟨List.length_set, counted_inc hlock h.bound hi⟩
    · exact ⟨rfl, hlock⟩
  | read i => exact ⟨rfl, hlock⟩
  | dec i =>
    simp only [concStep]
    split
    · rename_i hi
      exact ⟨List.length_set, counted_dec hlock hi⟩
    · exact ⟨rfl, hlock⟩
  | enter m =>
    simp only [concStep]
    split
    · exact ⟨rfl, by simpa [Counted, Conc.wrote] using hlock⟩
    · exact ⟨rfl, hlock⟩
  | write => exact ⟨rfl, by simpa [Counted, concStep, Conc.wrote] using hlock⟩
  | activate ver =>
    simp only [concStep]
    split
    · exact ⟨rfl, by simpa [Counted] using hlock⟩
    · exact ⟨rfl, hlock⟩
  | exitWorker i =>
    simp only [concStep]
    split
    · rename_i hi
      exact ⟨rfl, by simp [Counted, List.count_eq_zero.2 (ha hi)]⟩
    · exact ⟨rfl, hlock⟩
  | reload => exact ⟨rfl, by simp [Counted, concStep, List.count_eq_zero.2 ha]⟩

/-! ### The writer -/

/-- A reader's step, and a reset, do not touch status or writer, and in quiet they change
nothing else. -/
theorem WriterInv.of_same {c c' : Conc} (h : WriterInv c) (hw : c'.writer = c.writer)
    (hs : c'.shm.status = c.shm.status) (hq : Quiet c → c'.readers = c.readers) : WriterInv c' := by
  have hquiet : Quiet c → Quiet c' := fun hQ => by
    unfold Quiet at hQ ⊢
    rwa [hs, hq hQ]
  unfold WriterInv at h ⊢
  rw [hw]
  cases hcw : c.writer <;> simp only [hcw] at h ⊢
  case testLock => rwa [hs]
  all_goals exact hquiet h

theorem not_mem_of_quiet {c : Conc} (h : Quiet c) {i : Nat} {r : ReaderPc}
    (hi : c.readers[i]? = some r) : r = .idle :=
  h.2 r (List.mem_of_getElem? hi)

/-- With the counter at 0 and nobody about to count, nobody is in flight. -/
theorem all_idle_of_lock_zero {c : Conc} (h : ReadersInv c) (h0 : c.shm.lock = 0)
    (hc : ReaderPc.checked ∉ c.readers) : ∀ r ∈ c.readers, r = .idle := by
  have hcount : c.readers.count .holding = 0 := by rw [← h.lock, h0]; rfl
  have hh := List.count_eq_zero.1 hcount
  intro r hr
  cases r with
  | idle => rfl
  | checked => exact absurd hr hc
  | holding => exact absurd hr hh

theorem writerInv_write {c : Conc} (h : ReadersInv c) (ha : Careful c .write) :
    WriterInv (concStep c .write) := by
  have hw := h.writer
  obtain ⟨s, rs, w⟩ := c
  cases w with
  | idle => trivial
  | zero m => exact rfl
  | testLock m =>
    simp only [concStep, writerStep, Conc.wrote]
    split
    · trivial
    · rename_i hl
      have hl0 := lock_eq_zero hl
      have hst : s.status = 0 := hw
      have hidle := all_idle_of_lock_zero h hl0 (ha hl0)
      exact ⟨by simp [hst], hidle⟩
  | freePolicy m => exact hw
  | freeHosts m => trivial
  | testAgain m =>
    simp only [concStep, writerStep, Conc.wrote]
    split
    · rename_i hl
      exact ha (Or.inl hl)
    · cases hb : readRuntimeBody (msgBody m) with
      | error e => exact ha (Or.inr (by rw [hb]; rfl))
      | ok r => trivial
  | install m b d => trivial
  | failure => trivial

theorem writerInv_enter {c : Conc} {m : Dec} (h : WriterInv c) (ha : Careful c (.enter m)) :
    WriterInv (concStep c (.enter m)) := by
  simp only [concStep]
  split
  · rename_i hidle
    unfold enterStep
    cases hg : runtimeGate c.shm (msgStatus m) (msgVersion m) with
    | same => trivial
    | refuse => exact ha hidle hg
    | replace =>
      simp only
      split <;> trivial
  · exact h

theorem writerInv_step {c : Conc} (h : ReadersInv c) {a : Act} (ha : Careful c a) :
    WriterInv (concStep c a) := by
  have hw := h.writer
  cases a with
  | check i =>
    simp only [concStep]
    split
    · rename_i hi
      -- no request passes the check in quiet
      exact hw.of_same rfl rfl fun hq => absurd hi.2 (not_le.2 hq.1)
    · exact hw
  | inc i =>
    simp only [concStep]
    split
    · rename_i hi
      exact hw.of_same rfl rfl fun hq => absurd (not_mem_of_quiet hq hi) (by decide)
    · exact hw
  | read i => exact hw
  | dec i =>
    simp only [concStep]
    split
    · rename_i hi
      exact hw.of_same rfl rfl fun hq => absurd (not_mem_of_quiet hq hi) (by decide)
    · exact hw
  | enter m => exact writerInv_enter hw ha
  | write => exact writerInv_write h ha
  | activate ver =>
    simp only [concStep]
    split
    · rename_i hidle
      obtain ⟨s, rs, w⟩ := c
      cases w with
      | idle => trivial
      | _ => simp [WriterPc.isIdle] at hidle
    · exact hw
  | exitWorker i =>
    simp only [concStep]
    split
    · exact hw.of_same rfl rfl fun _ => rfl
    · exact hw
  | reload => exact hw.of_same rfl rfl fun _ => rfl

/-! ### Runs -/

theorem readersInv_step (c : Conc) (a : Act) (h : ReadersInv c) (ha : Careful c a) :
    ReadersInv (concStep c a) := by
  obtain ⟨hlen, hlock⟩ := counter_step h ha
  exact ⟨by rw [hlen]; exact h.bound, hlock, writerInv_step h ha⟩

theorem readersInv_init {n : Nat} (hn : n < 2 ^ 64) (hasBitset : Bool) :
    ReadersInv (concInit n hasBitset) := by
  refine ⟨by simpa [concInit] using hn, ?_, trivial⟩
  have h0 : (concInit n hasBitset).shm.lock.toNat = 0 := rfl
  rw [h0, eq_comm, List.count_eq_zero]
  simp [concInit]

/-- A free happens in quiet. -/
theorem all_idle_of_frees {c : Conc} (h : WriterInv c) {a : Act} (hf : Frees c a) :
    ∀ r ∈ c.readers, r = .idle := by
  obtain ⟨-, hf⟩ := hf
  unfold WriterInv at h
  cases hcw : c.writer <;> simp only [hcw] at h hf
  all_goals exact h.2

/-- **Readers never overlap a free**, for any number of workers and any interleaving of careful
steps. -/
theorem readers_never_overlap_free {n : Nat} (hn : n < 2 ^ 64) (hasBitset : Bool) {as : List Act}
    (h : Always concStep Careful (concInit n hasBitset) as) : NoOverlap (concInit n hasBitset) as := by
  have hinv : ∀ pre post, as = pre ++ post → ReadersInv (run concStep (concInit n hasBitset) pre) := by
    rintro pre post rfl
    exact run_inv concStep readersInv_step (readersInv_init hn hasBitset)
      ((always_append concStep).1 h).1
  exact ⟨fun pre post he => (hinv pre post he).lock,
    fun pre a post he hf => all_idle_of_frees (hinv pre _ he).writer hf⟩

/-- Version `ver`, status 1, nothing else. -/
def versionMsg (ver : UInt8) : Dec :=
  .ofBuf [0, 1, 0, 0, 0, ver, 0, 0, 0, 0, 0, 0, 0, 0, 0, 0] (Stream'.const 0) (Stream'.const true)

/-- Install version 1 and activate it; `lead` comes before the writer replaces it by version 2
and `last` steps of the writer follow. -/
def replaceRun (lead : List Act) (last : Nat) : List Act :=
  [.enter (versionMsg 1), .write, .write, .activate 1] ++ lead ++
    .enter (versionMsg 2) :: List.replicate last .write

/-- A request comes and goes, and the table is replaced. -/
theorem readers_never_overlap_free_served :
    (run concStep (concInit 2 false) (replaceRun [.check 0, .inc 0, .read 0, .dec 0] 6)).shm.version = 2 ∧
    NoOverlap (concInit 2 false) (replaceRun [.check 0, .inc 0, .read 0, .dec 0] 6) := by
  refine ⟨by decide +kernel, readers_never_overlap_free (by decide) false ?_⟩
  refine ⟨fun _ h => absurd h (by decide +kernel), ?_, trivial, trivial, trivial, trivial, trivial, trivial,
    fun _ h => absurd h (by decide +kernel), trivial, fun _ => by decide +kernel, trivial, trivial, ?_,
    trivial, trivial⟩
  · exact fun h => absurd h (by decide +kernel)
  · exact fun h => absurd h (by decide +kernel)

/-- A request that has read status 2 and not yet counted itself does not stop the writer. -/
theorem free_under_checked_reader :
    ¬ NoOverlap (concInit 1 false) (replaceRun [.check 0] 3) := by
  intro h
  have hf : Frees (run concStep (concInit 1 false) (replaceRun [.check 0] 2)) .write := ⟨rfl, trivial⟩
  have hidle := h.free (replaceRun [.check 0] 2) .write [] rfl hf .checked
  exact absurd (hidle (by decide +kernel)) (by decide)

end NgxPlus.Diversion
