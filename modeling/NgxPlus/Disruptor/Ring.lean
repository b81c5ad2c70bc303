import NgxPlus.Lib.ByteMem
import NgxPlus.Lib.Intervals
import NgxPlus.Lib.Trace
import Mathlib.Logic.Function.Basic

/-!
# The disruptor: cursors

| here | there |
| --- | --- |
| `ngxDisruptorCreate` | `ngx_disruptor_create` (`ngx_disruptor.c:154-190`); `none` is `NULL` |
| `Producer`, `stepProducer` | `ngx_disruptor_next` (`:8-39`) and `ngx_disruptor_publish` (`:41-64`), one access to shared memory a step |
| `Consumer`, `stepConsumer` | `ngx_disruptor_consumer_thread` (`:95-152`), the same |
| `Action.startup` | `ngx_disruptor_startup` (`:192-223`): the flag, then the threads |

A state of a thread is the place of its next access together with its locals, which may be out of
date. There are as many producers and consumers as a run has names for; `step` leaves alone a
thread that is not where the action wants it. Cursors are natural numbers: they do not wrap.
`memcpy` goes byte by byte. The callback only reads. `ngx_disruptor_destroy` and the time stamps
are left out, and with the first the count of running threads.

`handed`, `items`, `claimed`, `committed` and `delivered` are records of what happened, which
no thread reads.

`next` is not set before the ring was found to have room, and `ngx_disruptor_next` returns it
also when it gives up on a full ring (`:25-26`), which it does while `runing` is still 0:
`handed_twice`. In a run where that does not happen the cursors never cross
(`cursors_never_cross`).
-/

namespace NgxPlus.Disruptor

open ByteMem Intervals

/-! ## Creation -/

/-- What does not change. -/
structure Cfg where
  slots : Nat
  slotSize : Nat
  batchSize : Nat
deriving DecidableEq, Repr

/-- `do _slots <<= 1 while (_slots < slots)`. -/
def doubleLoop (slots : Int) : Nat → Nat → Nat
  | 0, s => s
  | fuel + 1, s => if ((s <<< 1 : Nat) : Int) < slots then doubleLoop slots fuel (s <<< 1) else s <<< 1

def ngxDisruptorCreate (slots : Int) (slotSize : Nat) (batchSize : Int) : Option Cfg :=
  let s := doubleLoop slots (slots.toNat + 1) 1
  if (s : Int) ≠ slots then none
  else if batchSize < 1 then none
  else some ⟨slots.toNat, slotSize, batchSize.toNat⟩

theorem doubleLoop_pow (slots : Int) (fuel k : Nat) : ∃ j, k ≤ j ∧ doubleLoop slots fuel (2 ^ k) = 2 ^ j := by
  induction fuel generalizing k with
  | zero => exact ⟨k, le_rfl, rfl⟩
  | succ fuel ih =>
    have hshift : 2 ^ k <<< 1 = 2 ^ (k + 1) := by
      rw [Nat.shiftLeft_eq, pow_one, ← pow_succ]
    rw [doubleLoop, hshift]
    split
    · obtain ⟨j, hj, heq⟩ := ih (k + 1)
      exact ⟨j, by omega, heq⟩
    · exact ⟨k + 1, by omega, rfl⟩

/-- Of a ring that is created. -/
theorem create_eq_some {slots batchSize : Int} {slotSize : Nat} {c : Cfg}
    (h : ngxDisruptorCreate slots slotSize batchSize = some c) : (∃ k, c.slots = 2 ^ k) ∧ 1 ≤ c.batchSize := by
  unfold ngxDisruptorCreate at h
  simp only at h
  split at h
  · simp at h
  · split at h
    · simp at h
    · rename_i hs hb
      obtain rfl := Option.some.inj h
      obtain ⟨j, -, hj⟩ := doubleLoop_pow slots (slots.toNat + 1) 0
      refine ⟨⟨j, ?_⟩, by simp only; omega⟩
      rw [pow_zero] at hj
      rw [hj] at hs
      simp only
      omega

/-- Every power of two from 2 on is taken. -/
theorem doubleLoop_eq {k fuel j : Nat} (hj : j < k) (hfuel : k ≤ j + fuel) :
    doubleLoop ((2 ^ k : Nat) : Int) fuel (2 ^ j) = 2 ^ k := by
  induction fuel generalizing j with
  | zero => omega
  | succ fuel ih =>
    have hshift : 2 ^ j <<< 1 = 2 ^ (j + 1) := by
      rw [Nat.shiftLeft_eq, pow_one, ← pow_succ]
    rw [doubleLoop, hshift]
    by_cases hlast : j + 1 = k
    · rw [hlast, if_neg (lt_irrefl _)]
    · have hlt : (2 : Nat) ^ (j + 1) < 2 ^ k := Nat.pow_lt_pow_right (by omega) (by omega)
      rw [if_pos (by exact_mod_cast hlt)]
      exact ih (by omega) (by omega)

theorem create_pow {k batchSize : Nat} (hk : 1 ≤ k) (hb : 1 ≤ batchSize) (slotSize : Nat) :
    ngxDisruptorCreate (2 ^ k : Nat) slotSize batchSize = some ⟨2 ^ k, slotSize, batchSize⟩ := by
  have hlt : k < 2 ^ k := Nat.lt_two_pow_self
  have hloop : doubleLoop ((2 ^ k : Nat) : Int) (2 ^ k + 1) (2 ^ 0) = 2 ^ k := doubleLoop_eq (by omega) (by omega)
  rw [pow_zero] at hloop
  unfold ngxDisruptorCreate
  simp only [Int.toNat_natCast, hloop, ne_eq, not_true_eq_false, if_false]
  rw [if_neg (by omega)]

/-! ## Threads -/

inductive Producer
  /-- Outside. -/
  | out
  /-- Before `current = ring_buf->wnext`, with `next`. -/
  | read (next : Nat)
  /-- Before `ring_buf->rcursor` is read. -/
  | check (current next : Nat)
  /-- The ring was full; before `disruptor->runing` is read. -/
  | blocked (next : Nat)
  /-- Before the compare-and-set of `wnext`; `next` is `current + 1`. -/
  | claim (current : Nat)
  /-- Back with a number. -/
  | has (sequence : Nat)
  /-- In `ngx_memcpy`, `done` bytes are written. -/
  | copy (sequence : Nat) (data : Bytes) (done : Nat)
  /-- Before the compare-and-set of `wcursor`. -/
  | publish (sequence : Nat) (data : Bytes)
deriving DecidableEq, Repr

/-- The number that it was given. -/
def Producer.sequence : Producer → Option Nat
  | .has sequence | .copy sequence _ _ | .publish sequence _ => some sequence
  | _ => none

inductive Consumer
  /-- Not started. -/
  | off
  /-- Before `current = ring_buf->rnext`. -/
  | prepare
  /-- Before `wcursor` is compared with `current`. -/
  | seen (current : Nat)
  /-- Nothing to consume; before `disruptor->runing` is read. -/
  | idle
  /-- Before `wcursor` is read for `next > ring_buf->wcursor`. -/
  | limit (current : Nat)
  /-- Before `next = ring_buf->wcursor`. -/
  | clamp (current : Nat)
  /-- Before the compare-and-set of `rnext`. -/
  | claim (current next : Nat)
  /-- Before the callback. -/
  | taken (current next : Nat)
  /-- In the callback. -/
  | calling (current next : Nat)
  /-- Before the compare-and-set of `rcursor`. -/
  | commit (current next : Nat)
  /-- It failed; before `disruptor->runing` is read. -/
  | retry (current next : Nat)
  /-- Before `disruptor->runing` is read at the end of the round. -/
  | again
  | ended
deriving DecidableEq, Repr

/-- The batch that it took and did not commit. -/
def Consumer.batch : Consumer → Option (Nat × Nat)
  | .taken current next | .calling current next | .commit current next | .retry current next => some (current, next)
  | _ => none

/-- The cursors, the threads and what the threads took. -/
structure Core where
  rcursor : Nat
  rnext : Nat
  wcursor : Nat
  wnext : Nat
  producers : Nat → Producer
  consumers : Nat → Consumer
  /-- What `ngx_disruptor_next` returned. -/
  handed : List Nat
  /-- The batches in the order of `rnext`. -/
  claimed : List (Nat × Nat)
  /-- The batches in the order of `rcursor`. -/
  committed : List (Nat × Nat)

structure State extends Core where
  runing : UInt8
  /-- The bytes from `ring_buf->start` on. -/
  buf : Nat → UInt8
  /-- What `ngx_disruptor_publish` was given for a number. -/
  items : Nat → Option Bytes
  /-- The batches in the order of the calls of `on_consumer`. -/
  delivered : List (Nat × Nat)

/-- After `calloc`. -/
def State.init : State where
  rcursor := 0
  rnext := 0
  wcursor := 0
  wnext := 0
  producers _ := .out
  consumers _ := .off
  handed := []
  claimed := []
  committed := []
  runing := 0
  buf _ := 0
  items _ := none
  delivered := []

def State.setProducer (s : State) (p : Nat) (x : Producer) : State :=
  { s with producers := Function.update s.producers p x }

def State.setConsumer (s : State) (i : Nat) (x : Consumer) : State :=
  { s with consumers := Function.update s.consumers i x }

/-- `(sequence & (slots - 1)) * slot_size`, from `ring_buf->start`. -/
def slotAt (c : Cfg) (sequence : Nat) : Nat := (sequence &&& (c.slots - 1)) * c.slotSize

/-! ## Steps -/

def stepProducer (c : Cfg) (s : State) (p : Nat) : State :=
  match s.producers p with
  | .out => s
  | .read next => s.setProducer p (.check s.wnext next)
  | .check current next =>
    if current = s.rcursor + c.slots then s.setProducer p (.blocked next) else s.setProducer p (.claim current)
  | .blocked next =>
    if s.runing ≠ 0 then s.setProducer p (.read next)
    else { s.setProducer p (.has next) with handed := s.handed ++ [next] }
  | .claim current =>
    if s.wnext = current then
      { s.setProducer p (.has (current + 1)) with wnext := current + 1, handed := s.handed ++ [current + 1] }
    else s.setProducer p (.read (current + 1))
  | .has _ => s
  | .copy sequence data done =>
    if done < data.length then
      { s.setProducer p (.copy sequence data (done + 1)) with
        buf := Function.update s.buf (slotAt c sequence + done) (data.getD done 0) }
    else s.setProducer p (.publish sequence data)
  | .publish sequence _ =>
    if s.wcursor + 1 = sequence then { s.setProducer p .out with wcursor := sequence } else s

def stepConsumer (c : Cfg) (s : State) (i : Nat) : State :=
  match s.consumers i with
  | .off => s
  | .prepare => s.setConsumer i (.seen s.rnext)
  | .seen current => if current = s.wcursor then s.setConsumer i .idle else s.setConsumer i (.limit current)
  | .idle => if s.runing ≠ 0 then s.setConsumer i .prepare else s.setConsumer i .ended
  | .limit current =>
    if current + c.batchSize > s.wcursor then s.setConsumer i (.clamp current)
    else s.setConsumer i (.claim current (current + c.batchSize))
  | .clamp current =>
    if s.wcursor - current > c.batchSize then s.setConsumer i (.claim current (current + c.batchSize))
    else s.setConsumer i (.claim current s.wcursor)
  | .claim current next =>
    if s.rnext = current then
      { s.setConsumer i (.taken current next) with rnext := next, claimed := s.claimed ++ [(current, next)] }
    else s.setConsumer i .prepare
  | .taken current next =>
    { s.setConsumer i (.calling current next) with delivered := s.delivered ++ [(current, next)] }
  | .calling current next => s.setConsumer i (.commit current next)
  | .commit current next =>
    if s.rcursor = current then
      { s.setConsumer i .again with rcursor := next, committed := s.committed ++ [(current, next)] }
    else s.setConsumer i (.retry current next)
  | .retry current next =>
    if s.runing ≠ 0 then s.setConsumer i (.commit current next) else s.setConsumer i .again
  | .again => if s.runing ≠ 0 then s.setConsumer i .prepare else s.setConsumer i .ended
  | .ended => s

inductive Action
  | startup (workThreads : Nat)
  /-- `ngx_disruptor_next` is entered; `next` holds what is on the stack. -/
  | next (p garbage : Nat)
  /-- `ngx_disruptor_publish` is entered. -/
  | publish (p : Nat) (data : Bytes)
  | producer (p : Nat)
  | consumer (i : Nat)
deriving DecidableEq, Repr

/-- `'0'` and `'1'`. -/
def stopped : UInt8 := 0x30

def started : UInt8 := 0x31

def step (c : Cfg) (s : State) : Action → State
  | .startup workThreads =>
    { s with
      runing := started
      consumers := fun i => if i < workThreads ∧ s.consumers i = .off then .prepare else s.consumers i }
  | .next p garbage =>
    match s.producers p with
    | .out => if s.runing = stopped then s else s.setProducer p (.read garbage)
    | _ => s
  | .publish p data =>
    match s.producers p with
    | .has sequence =>
      if s.runing = stopped then s.setProducer p .out
      else if data.length > c.slotSize then s.setProducer p .out
      else
        { s.setProducer p (.copy sequence data 0) with items := Function.update s.items sequence (some data) }
    | _ => s
  | .producer p => stepProducer c s p
  | .consumer i => stepConsumer c s i

/-- A producer's action. -/
def Action.ofProducer : Action → Bool
  | .next _ _ | .publish _ _ | .producer _ => true
  | _ => false

/-- Producers touch neither the threads nor the flag. -/
theorem step_same (c : Cfg) (s : State) {a : Action} (ha : a.ofProducer = true) :
    (step c s a).consumers = s.consumers ∧ (step c s a).runing = s.runing := by
  cases a with
  | startup _ => simp [Action.ofProducer] at ha
  | consumer _ => simp [Action.ofProducer] at ha
  | next p garbage =>
    unfold step
    simp only
    split
    · split
      · exact ⟨rfl, rfl⟩
      · exact ⟨rfl, rfl⟩
    · exact ⟨rfl, rfl⟩
  | publish p data =>
    unfold step
    simp only
    split
    · split
      · exact ⟨rfl, rfl⟩
      · split
        · exact ⟨rfl, rfl⟩
        · exact ⟨rfl, rfl⟩
    · exact ⟨rfl, rfl⟩
  | producer p =>
    change (stepProducer c s p).consumers = s.consumers ∧ (stepProducer c s p).runing = s.runing
    unfold stepProducer
    split
    all_goals try split
    all_goals exact ⟨rfl, rfl⟩

def Producer.isBlocked : Producer → Bool
  | .blocked _ => true
  | _ => false

/-- `ngx_disruptor_next` does not give up on a full ring. -/
def NotGivenUp (s : State) : Action → Prop
  | .producer p => (s.producers p).isBlocked = true → s.runing ≠ 0
  | _ => True

instance (s : State) : (a : Action) → Decidable (NotGivenUp s a)
  | .startup _ | .next _ _ | .publish _ _ | .consumer _ => isTrue trivial
  | .producer p => inferInstanceAs (Decidable ((s.producers p).isBlocked = true → s.runing ≠ 0))

/-! ## The invariant -/

def ProducerOk (slots rcursor wcursor wnext : Nat) : Producer → Prop
  | .check current _ => current ≤ wnext
  -- stale values lie behind `wnext`, where the compare-and-set fails
  | .claim current => current ≤ wnext ∧ (current = wnext → current < rcursor + slots)
  | .has n | .copy n _ _ | .publish n _ => wcursor < n ∧ n ≤ wnext
  | _ => True

def ConsumerOk (rnext wcursor : Nat) : Consumer → Prop
  | .seen current => current ≤ rnext
  | .limit current | .clamp current => current ≤ rnext ∧ current < wcursor
  | .claim current next => current ≤ rnext ∧ current < next ∧ next ≤ wcursor
  | _ => True

structure Inv (c : Cfg) (s : Core) : Prop where
  rcursor_le : s.rcursor ≤ s.rnext
  rnext_le : s.rnext ≤ s.wcursor
  wcursor_le : s.wcursor ≤ s.wnext
  wnext_le : s.wnext ≤ s.rcursor + c.slots
  producer : ∀ p, ProducerOk c.slots s.rcursor s.wcursor s.wnext (s.producers p)
  sequences : ∀ p q n, (s.producers p).sequence = some n → (s.producers q).sequence = some n → p = q
  handed_nodup : s.handed.Nodup
  handed_le : ∀ n ∈ s.handed, n ≤ s.wnext
  consumer : ∀ i, ConsumerOk s.rnext s.wcursor (s.consumers i)
  batches : ∀ i j b, (s.consumers i).batch = some b → (s.consumers j).batch = some b → i = j
  /-- Batches in flight follow those that are committed. -/
  chain : ∃ flight, s.claimed = s.committed ++ flight ∧ Consecutive 0 s.committed s.rcursor ∧
    Consecutive s.rcursor flight s.rnext ∧ ∀ i b, (s.consumers i).batch = some b → b ∈ flight

theorem inv_init (c : Cfg) : Inv c State.init.toCore where
  rcursor_le := le_rfl
  rnext_le := le_rfl
  wcursor_le := le_rfl
  wnext_le := Nat.zero_le _
  producer _ := trivial
  sequences _ _ _ h := by simp [State.init, Producer.sequence] at h
  handed_nodup := List.nodup_nil
  handed_le _ h := by simp [State.init] at h
  consumer _ := trivial
  batches _ _ _ h := by simp [State.init, Consumer.batch] at h
  chain := ⟨[], rfl, rfl, rfl, fun _ _ h => by simp [State.init, Consumer.batch] at h⟩

section Ok

variable {slots rcursor rnext wcursor wnext : Nat}

theorem ProducerOk.sequence {x : Producer} {n : Nat} (h : ProducerOk slots rcursor wcursor wnext x)
    (hn : x.sequence = some n) : wcursor < n ∧ n ≤ wnext := by
  cases x with
  | has m =>
    obtain rfl := Option.some.inj hn
    exact h
  | copy m _ _ =>
    obtain rfl := Option.some.inj hn
    exact h
  | publish m _ =>
    obtain rfl := Option.some.inj hn
    exact h
  | _ => simp [Producer.sequence] at hn

/-- The others are out of date, not wrong, when `wnext` moves. -/
theorem ProducerOk.claimed {x : Producer} (h : ProducerOk slots rcursor wcursor wnext x) :
    ProducerOk slots rcursor wcursor (wnext + 1) x := by
  cases x with
  | check current _ => exact Nat.le_succ_of_le h
  | claim current => exact ⟨Nat.le_succ_of_le h.1, fun heq => by have := h.1; omega⟩
  | has n => exact ⟨h.1, Nat.le_succ_of_le h.2⟩
  | copy n _ _ => exact ⟨h.1, Nat.le_succ_of_le h.2⟩
  | publish n _ => exact ⟨h.1, Nat.le_succ_of_le h.2⟩
  | _ => trivial

theorem ProducerOk.committed {x : Producer} (h : ProducerOk slots rcursor wcursor wnext x) {next : Nat}
    (hle : rcursor ≤ next) : ProducerOk slots next wcursor wnext x := by
  cases x with
  | claim current => exact ⟨h.1, fun heq => by have := h.2 heq; omega⟩
  | check current _ => exact h
  | has n => exact h
  | copy n _ _ => exact h
  | publish n _ => exact h
  | _ => trivial

/-- `wcursor` moves by one, to a number that this producer does not have. -/
theorem ProducerOk.published {x : Producer} (h : ProducerOk slots rcursor wcursor wnext x)
    (hne : x.sequence ≠ some (wcursor + 1)) : ProducerOk slots rcursor (wcursor + 1) wnext x := by
  have hlt : ∀ n, wcursor < n → some n ≠ some (wcursor + 1) → wcursor + 1 < n := by
    intro n hn hne
    have : n ≠ wcursor + 1 := fun heq => hne (congrArg some heq)
    omega
  cases x with
  | check current _ => exact h
  | claim current => exact h
  | has n => exact ⟨hlt n h.1 hne, h.2⟩
  | copy n _ _ => exact ⟨hlt n h.1 hne, h.2⟩
  | publish n _ => exact ⟨hlt n h.1 hne, h.2⟩
  | _ => trivial

theorem ConsumerOk.mono {x : Consumer} (h : ConsumerOk rnext wcursor x) {rnext' wcursor' : Nat}
    (hr : rnext ≤ rnext') (hw : wcursor ≤ wcursor') : ConsumerOk rnext' wcursor' x := by
  cases x with
  | seen current => exact le_trans h hr
  | limit current => exact ⟨le_trans h.1 hr, lt_of_lt_of_le h.2 hw⟩
  | clamp current => exact ⟨le_trans h.1 hr, lt_of_lt_of_le h.2 hw⟩
  | claim current next => exact ⟨le_trans h.1 hr, h.2.1, le_trans h.2.2 hw⟩
  | _ => trivial

end Ok

section Local

variable {c : Cfg} {s : State} (h : Inv c s.toCore)

include h

/-- A producer moves, and keeps the number it has or drops it. -/
theorem Inv.setProducer {p : Nat} {x : Producer} (hx : ProducerOk c.slots s.rcursor s.wcursor s.wnext x)
    (hseq : ∀ n, x.sequence = some n → (s.producers p).sequence = some n) : Inv c (s.setProducer p x).toCore where
  rcursor_le := h.rcursor_le
  rnext_le := h.rnext_le
  wcursor_le := h.wcursor_le
  wnext_le := h.wnext_le
  producer q := by
    by_cases hq : q = p
    · subst hq
      simpa [State.setProducer] using hx
    · simpa [State.setProducer, Function.update_of_ne hq] using h.producer q
  sequences q r n hq hr := by
    have hkeep : ∀ t, ((s.setProducer p x).producers t).sequence = some n → (s.producers t).sequence = some n := by
      intro t ht
      by_cases htp : t = p
      · subst htp
        simp only [State.setProducer, Function.update_self] at ht
        exact hseq n ht
      · simpa [State.setProducer, Function.update_of_ne htp] using ht
    exact h.sequences q r n (hkeep q hq) (hkeep r hr)
  handed_nodup := h.handed_nodup
  handed_le := h.handed_le
  consumer := h.consumer
  batches := h.batches
  chain := h.chain

theorem Inv.setConsumer {i : Nat} {x : Consumer} (hx : ConsumerOk s.rnext s.wcursor x)
    (hb : ∀ b, x.batch = some b → (s.consumers i).batch = some b) : Inv c (s.setConsumer i x).toCore := by
  have hkeep : ∀ j b, ((s.setConsumer i x).consumers j).batch = some b → (s.consumers j).batch = some b := by
    intro j b hj
    by_cases hji : j = i
    · subst hji
      simp only [State.setConsumer, Function.update_self] at hj
      exact hb b hj
    · simpa [State.setConsumer, Function.update_of_ne hji] using hj
  obtain ⟨flight, hclaimed, hcom, hfl, hmem⟩ := h.chain
  exact
    { rcursor_le := h.rcursor_le
      rnext_le := h.rnext_le
      wcursor_le := h.wcursor_le
      wnext_le := h.wnext_le
      producer := h.producer
      sequences := h.sequences
      handed_nodup := h.handed_nodup
      handed_le := h.handed_le
      consumer := by
        intro j
        by_cases hji : j = i
        · subst hji
          simpa [State.setConsumer] using hx
        · simpa [State.setConsumer, Function.update_of_ne hji] using h.consumer j
      batches := fun j k b hj hk => h.batches j k b (hkeep j b hj) (hkeep k b hk)
      chain := ⟨flight, hclaimed, hcom, hfl, fun j b hj => hmem j b (hkeep j b hj)⟩ }

end Local

/-! ## One step -/

section Step

variable {c : Cfg} {s : State} (h : Inv c s.toCore)

include h

/-- The compare-and-set of `wnext`. -/
theorem Inv.claimSequence {p : Nat} (hp : s.producers p = .claim s.wnext) :
    Inv c { s.setProducer p (.has (s.wnext + 1)) with
      wnext := s.wnext + 1, handed := s.handed ++ [s.wnext + 1] }.toCore := by
  have hroom : s.wnext < s.rcursor + c.slots := by
    have := h.producer p
    rw [hp] at this
    exact this.2 rfl
  have hle := h.wcursor_le
  have hold : ∀ q, (s.producers q).sequence ≠ some (s.wnext + 1) := by
    intro q hq
    have := ((h.producer q).sequence hq).2
    omega
  have hupd : ∀ q n, q ≠ p → ((s.setProducer p (.has (s.wnext + 1))).producers q).sequence = some n →
      (s.producers q).sequence = some n := by
    intro q n hqp hq
    simpa [State.setProducer, Function.update_of_ne hqp] using hq
  refine { rcursor_le := h.rcursor_le, rnext_le := h.rnext_le, wcursor_le := Nat.le_succ_of_le hle,
           wnext_le := hroom, producer := ?_, sequences := ?_, handed_nodup := ?_, handed_le := ?_,
           consumer := h.consumer, batches := h.batches, chain := h.chain }
  · intro q
    by_cases hqp : q = p
    · subst hqp
      simp only [State.setProducer, Function.update_self]
      exact ⟨Nat.lt_succ_of_le hle, le_rfl⟩
    · simp only [State.setProducer, Function.update_of_ne hqp]
      exact (h.producer q).claimed
  · have hown : ∀ q n, ((s.setProducer p (.has (s.wnext + 1))).producers q).sequence = some n → q ≠ p →
        n ≠ s.wnext + 1 := by
      rintro q n hq hqp rfl
      exact hold q (hupd q _ hqp hq)
    have hself : ∀ n, ((s.setProducer p (.has (s.wnext + 1))).producers p).sequence = some n → n = s.wnext + 1 := by
      intro n hn
      simpa [State.setProducer, Producer.sequence, eq_comm] using hn
    intro q r n hq hr
    by_cases hqp : q = p
    · by_cases hrp : r = p
      · rw [hqp, hrp]
      · exact absurd (hself n (hqp ▸ hq)) (hown r n hr hrp)
    · by_cases hrp : r = p
      · exact absurd (hself n (hrp ▸ hr)) (hown q n hq hqp)
      · exact h.sequences q r n (hupd q n hqp hq) (hupd r n hrp hr)
  · refine List.nodup_append.2 ⟨h.handed_nodup, List.nodup_singleton _, ?_⟩
    intro a ha b hb heq
    have := h.handed_le a ha
    have := List.mem_singleton.1 hb
    omega
  · intro n hn
    rcases List.mem_append.1 hn with hn | hn
    · exact Nat.le_succ_of_le (h.handed_le n hn)
    · exact (List.mem_singleton.1 hn).le

/-- The compare-and-set of `wcursor`. -/
theorem Inv.publishSequence {p : Nat} {data : Bytes} (hp : s.producers p = .publish (s.wcursor + 1) data) :
    Inv c { s.setProducer p .out with wcursor := s.wcursor + 1 }.toCore := by
  have hle : s.wcursor + 1 ≤ s.wnext := by
    have := h.producer p
    rw [hp] at this
    exact this.2
  have hout := h.setProducer (p := p) (x := .out) trivial (by simp [Producer.sequence])
  refine { rcursor_le := h.rcursor_le, rnext_le := Nat.le_succ_of_le h.rnext_le, wcursor_le := hle,
           wnext_le := h.wnext_le, producer := ?_, sequences := hout.sequences, handed_nodup := h.handed_nodup,
           handed_le := h.handed_le, consumer := ?_, batches := h.batches, chain := h.chain }
  · intro q
    by_cases hqp : q = p
    · subst hqp
      simp only [State.setProducer, Function.update_self]
      trivial
    · simp only [State.setProducer, Function.update_of_ne hqp]
      refine (h.producer q).published fun hq => hqp ?_
      exact h.sequences q p _ hq (by rw [hp]; rfl)
  · intro i
    exact (h.consumer i).mono le_rfl (Nat.le_succ _)

/-- The compare-and-set of `rnext`. -/
theorem Inv.claimBatch {i next : Nat} (hi : s.consumers i = .claim s.rnext next) :
    Inv c { s.setConsumer i (.taken s.rnext next) with
      rnext := next, claimed := s.claimed ++ [(s.rnext, next)] }.toCore := by
  obtain ⟨-, hlt, hle⟩ : s.rnext ≤ s.rnext ∧ s.rnext < next ∧ next ≤ s.wcursor := by
    have := h.consumer i
    rw [hi] at this
    exact this
  obtain ⟨flight, hclaimed, hcom, hfl, hmem⟩ := h.chain
  have hupd : ∀ j b, j ≠ i → ((s.setConsumer i (.taken s.rnext next)).consumers j).batch = some b →
      (s.consumers j).batch = some b := by
    intro j b hji hj
    simpa [State.setConsumer, Function.update_of_ne hji] using hj
  have hself : ∀ b, ((s.setConsumer i (.taken s.rnext next)).consumers i).batch = some b → b = (s.rnext, next) := by
    intro b hb
    simpa [State.setConsumer, Consumer.batch, eq_comm] using hb
  have hown : ∀ j b, j ≠ i → ((s.setConsumer i (.taken s.rnext next)).consumers j).batch = some b →
      b ≠ (s.rnext, next) := by
    rintro j b hji hj rfl
    have := (hfl.mem (hmem j _ (hupd j _ hji hj))).2
    omega
  refine { rcursor_le := h.rcursor_le.trans hlt.le, rnext_le := hle, wcursor_le := h.wcursor_le,
           wnext_le := h.wnext_le, producer := h.producer, sequences := h.sequences, handed_nodup := h.handed_nodup,
           handed_le := h.handed_le, consumer := ?_, batches := ?_, chain := ?_ }
  · intro j
    by_cases hji : j = i
    · subst hji
      simp only [State.setConsumer, Function.update_self]
      trivial
    · simp only [State.setConsumer, Function.update_of_ne hji]
      exact (h.consumer j).mono hlt.le le_rfl
  · intro j k b hj hk
    by_cases hji : j = i
    · by_cases hki : k = i
      · rw [hji, hki]
      · exact absurd (hself b (hji ▸ hj)) (hown k b hki hk)
    · by_cases hki : k = i
      · exact absurd (hself b (hki ▸ hk)) (hown j b hji hj)
      · exact h.batches j k b (hupd j b hji hj) (hupd k b hki hk)
  · refine ⟨flight ++ [(s.rnext, next)], ?_, hcom, ?_, ?_⟩
    · simp only [State.setConsumer, hclaimed, List.append_assoc]
    · exact consecutive_append.2 ⟨s.rnext, hfl, rfl, hlt, rfl⟩
    · intro j b hj
      by_cases hji : j = i
      · rw [hself b (hji ▸ hj)]
        simp
      · exact List.mem_append_left _ (hmem j b (hupd j b hji hj))

/-- The compare-and-set of `rcursor`. -/
theorem Inv.commitBatch {i next : Nat} (hi : s.consumers i = .commit s.rcursor next) :
    Inv c { s.setConsumer i .again with
      rcursor := next, committed := s.committed ++ [(s.rcursor, next)] }.toCore := by
  obtain ⟨flight, hclaimed, hcom, hfl, hmem⟩ := h.chain
  have hbatch : (s.consumers i).batch = some (s.rcursor, next) := by
    rw [hi]
    rfl
  obtain ⟨rest, hrest, hnext⟩ := hfl.head (hmem i _ hbatch)
  have hlt := (hfl.mem (hmem i _ hbatch)).2.1
  have hagain := h.setConsumer (i := i) (x := .again) trivial (by simp [Consumer.batch])
  refine { rcursor_le := hnext.le, rnext_le := h.rnext_le, wcursor_le := h.wcursor_le, wnext_le := ?_,
           producer := fun p => (h.producer p).committed hlt.le, sequences := h.sequences,
           handed_nodup := h.handed_nodup, handed_le := h.handed_le, consumer := hagain.consumer,
           batches := hagain.batches, chain := ⟨rest, ?_, ?_, hnext, ?_⟩ }
  · have := h.wnext_le
    simp only [State.setConsumer]
    omega
  · simp only [State.setConsumer, hclaimed, hrest, List.append_assoc, List.singleton_append]
  · exact consecutive_append.2 ⟨s.rcursor, hcom, rfl, hlt, rfl⟩
  · intro j b hj
    by_cases hji : j = i
    · subst hji
      simp [State.setConsumer, Consumer.batch] at hj
    · have hj' : (s.consumers j).batch = some b := by
        simpa [State.setConsumer, Function.update_of_ne hji] using hj
      have hb := hmem j b hj'
      rw [hrest] at hb
      rcases List.mem_cons.1 hb with rfl | hb
      · exact absurd (h.batches j i _ hj' hbatch) hji
      · exact hb

theorem Inv.stepProducer {p : Nat} (hgive : NotGivenUp s (.producer p)) : Inv c (stepProducer c s p).toCore := by
  have hok := h.producer p
  unfold NgxPlus.Disruptor.stepProducer
  cases hp : s.producers p with
  | out => exact h
  | read next => exact h.setProducer le_rfl (by simp [Producer.sequence])
  | check current next =>
    rw [hp] at hok
    simp only
    split
    · exact h.setProducer trivial (by simp [Producer.sequence])
    · rename_i hne
      refine h.setProducer ⟨hok, fun heq => ?_⟩ (by simp [Producer.sequence])
      have := h.wnext_le
      omega
  | blocked next =>
    simp only
    rw [if_pos (hgive (by rw [hp]; rfl))]
    exact h.setProducer trivial (by simp [Producer.sequence])
  | claim current =>
    simp only
    split
    · rename_i heq
      subst heq
      exact h.claimSequence hp
    · exact h.setProducer trivial (by simp [Producer.sequence])
  | has sequence => exact h
  | copy sequence data done =>
    rw [hp] at hok
    simp only
    split
    · exact h.setProducer (p := p) (x := .copy sequence data (done + 1)) hok (by simp [hp, Producer.sequence])
    · exact h.setProducer hok (by simp [hp, Producer.sequence])
  | publish sequence data =>
    simp only
    split
    · rename_i heq
      subst heq
      exact h.publishSequence hp
    · exact h

theorem Inv.stepConsumer (hbatch : 1 ≤ c.batchSize) (i : Nat) : Inv c (stepConsumer c s i).toCore := by
  have hok := h.consumer i
  unfold NgxPlus.Disruptor.stepConsumer
  cases hi : s.consumers i with
  | off => exact h
  | prepare => exact h.setConsumer le_rfl (by simp [Consumer.batch])
  | seen current =>
    rw [hi] at hok
    simp only
    split
    · exact h.setConsumer trivial (by simp [Consumer.batch])
    · rename_i hne
      have hle : current ≤ s.wcursor := le_trans hok h.rnext_le
      exact h.setConsumer ⟨hok, by omega⟩ (by simp [Consumer.batch])
  | idle =>
    simp only
    split
    · exact h.setConsumer trivial (by simp [Consumer.batch])
    · exact h.setConsumer trivial (by simp [Consumer.batch])
  | limit current =>
    rw [hi] at hok
    simp only
    split
    · exact h.setConsumer hok (by simp [Consumer.batch])
    · exact h.setConsumer ⟨hok.1, by omega, by omega⟩ (by simp [Consumer.batch])
  | clamp current =>
    rw [hi] at hok
    have hlt := hok.2
    simp only
    split
    · exact h.setConsumer ⟨hok.1, by omega, by omega⟩ (by simp [Consumer.batch])
    · exact h.setConsumer ⟨hok.1, hlt, le_rfl⟩ (by simp [Consumer.batch])
  | claim current next =>
    simp only
    split
    · rename_i heq
      subst heq
      exact h.claimBatch hi
    · exact h.setConsumer trivial (by simp [Consumer.batch])
  | taken current next =>
    exact h.setConsumer (i := i) (x := .calling current next) trivial (by simp [hi, Consumer.batch])
  | calling current next => exact h.setConsumer trivial (by simp [hi, Consumer.batch])
  | commit current next =>
    simp only
    split
    · rename_i heq
      subst heq
      exact h.commitBatch hi
    · exact h.setConsumer trivial (by simp [hi, Consumer.batch])
  | retry current next =>
    simp only
    split
    · exact h.setConsumer trivial (by simp [hi, Consumer.batch])
    · exact h.setConsumer trivial (by simp [Consumer.batch])
  | again =>
    simp only
    split
    · exact h.setConsumer trivial (by simp [Consumer.batch])
    · exact h.setConsumer trivial (by simp [Consumer.batch])
  | ended => exact h

/-- Threads that are started hold nothing. -/
theorem Inv.startup (workThreads : Nat) : Inv c (step c s (.startup workThreads)).toCore := by
  have hkeep : ∀ i b, ((step c s (.startup workThreads)).consumers i).batch = some b →
      (s.consumers i).batch = some b := by
    intro i b hb
    simp only [step] at hb
    split at hb
    · simp [Consumer.batch] at hb
    · exact hb
  obtain ⟨flight, hclaimed, hcom, hfl, hmem⟩ := h.chain
  refine { rcursor_le := h.rcursor_le, rnext_le := h.rnext_le, wcursor_le := h.wcursor_le, wnext_le := h.wnext_le,
           producer := h.producer, sequences := h.sequences, handed_nodup := h.handed_nodup,
           handed_le := h.handed_le, consumer := ?_,
           batches := fun i j b hi hj => h.batches i j b (hkeep i b hi) (hkeep j b hj),
           chain := ⟨flight, hclaimed, hcom, hfl, fun i b hi => hmem i b (hkeep i b hi)⟩ }
  intro i
  simp only [step]
  split
  · trivial
  · exact h.consumer i

theorem Inv.step (hbatch : 1 ≤ c.batchSize) {a : Action} (hgive : NotGivenUp s a) : Inv c (step c s a).toCore := by
  cases a with
  | startup workThreads => exact h.startup workThreads
  | next p garbage =>
    unfold NgxPlus.Disruptor.step
    simp only
    split
    · split
      · exact h
      · exact h.setProducer trivial (by simp [Producer.sequence])
    · exact h
  | publish p data =>
    have hok := h.producer p
    unfold NgxPlus.Disruptor.step
    simp only
    split
    · rename_i sequence hp
      rw [hp] at hok
      split
      · exact h.setProducer trivial (by simp [Producer.sequence])
      · split
        · exact h.setProducer trivial (by simp [Producer.sequence])
        · exact h.setProducer (p := p) (x := .copy sequence data 0) hok (by simp [hp, Producer.sequence])
    · exact h
  | producer p => exact h.stepProducer hgive
  | consumer i => exact h.stepConsumer hbatch i

end Step

/-! ## Whole runs -/

/-- Componentwise. -/
structure Core.Le (s t : Core) : Prop where
  rcursor : s.rcursor ≤ t.rcursor
  rnext : s.rnext ≤ t.rnext
  wcursor : s.wcursor ≤ t.wcursor
  wnext : s.wnext ≤ t.wnext

theorem Core.Le.trans {s t u : Core} (h : s.Le t) (h' : t.Le u) : s.Le u :=
  ⟨h.rcursor.trans h'.rcursor, h.rnext.trans h'.rnext, h.wcursor.trans h'.wcursor, h.wnext.trans h'.wnext⟩

theorem stepProducer_le (c : Cfg) (s : State) (p : Nat) : s.toCore.Le (stepProducer c s p).toCore := by
  unfold stepProducer
  split
  all_goals try split
  all_goals try exact ⟨le_rfl, le_rfl, le_rfl, le_rfl⟩
  · rename_i heq
    exact ⟨le_rfl, le_rfl, le_rfl, by simp only; omega⟩
  · rename_i heq
    exact ⟨le_rfl, le_rfl, by simp only; omega, le_rfl⟩

theorem stepConsumer_le {c : Cfg} {s : State} (h : Inv c s.toCore) (i : Nat) :
    s.toCore.Le (stepConsumer c s i).toCore := by
  have hok := h.consumer i
  obtain ⟨flight, -, -, hfl, hmem⟩ := h.chain
  unfold stepConsumer
  split
  all_goals try split
  all_goals try exact ⟨le_rfl, le_rfl, le_rfl, le_rfl⟩
  · rename_i hi heq
    rw [hi] at hok
    have hlt := hok.2.1
    exact ⟨le_rfl, by simp only; omega, le_rfl, le_rfl⟩
  · rename_i current next hi heq
    have hlt := (hfl.mem (hmem i (current, next) (by rw [hi]; rfl))).2.1
    exact ⟨by simp only; omega, le_rfl, le_rfl, le_rfl⟩

theorem step_le {c : Cfg} {s : State} (h : Inv c s.toCore) (a : Action) : s.toCore.Le (step c s a).toCore := by
  cases a with
  | startup workThreads => exact ⟨le_rfl, le_rfl, le_rfl, le_rfl⟩
  | next p garbage =>
    unfold step
    simp only
    split
    · split
      · exact ⟨le_rfl, le_rfl, le_rfl, le_rfl⟩
      · exact ⟨le_rfl, le_rfl, le_rfl, le_rfl⟩
    · exact ⟨le_rfl, le_rfl, le_rfl, le_rfl⟩
  | publish p data =>
    unfold step
    simp only
    split
    · split
      · exact ⟨le_rfl, le_rfl, le_rfl, le_rfl⟩
      · split
        · exact ⟨le_rfl, le_rfl, le_rfl, le_rfl⟩
        · exact ⟨le_rfl, le_rfl, le_rfl, le_rfl⟩
    · exact ⟨le_rfl, le_rfl, le_rfl, le_rfl⟩
  | producer p => exact stepProducer_le c s p
  | consumer i => exact stepConsumer_le h i

section Run

variable {c : Cfg} (hbatch : 1 ≤ c.batchSize)

include hbatch

theorem inv_run {acts : List Action} (hgive : Trace.Always (step c) NotGivenUp .init acts) :
    Inv c (Trace.run (step c) .init acts).toCore :=
  Trace.run_inv (step c) (I := fun s => Inv c s.toCore) (fun _ _ h hg => h.step hbatch hg) (inv_init c) hgive

theorem run_le {s : State} (h : Inv c s.toCore) {acts : List Action}
    (hgive : Trace.Always (step c) NotGivenUp s acts) : s.toCore.Le (Trace.run (step c) s acts).toCore := by
  induction acts generalizing s with
  | nil => exact ⟨le_rfl, le_rfl, le_rfl, le_rfl⟩
  | cons a acts ih => exact (step_le h a).trans (ih (h.step hbatch hgive.1) hgive.2)

end Run

/-- A number that shares the slot of one that is being written was committed. -/
theorem committed_of_same_slot {c : Cfg} {s : State} (h : Inv c s.toCore) {p n t : Nat}
    (hn : (s.producers p).sequence = some n) (ht : t ≤ s.wcursor) (hslot : t % c.slots = n % c.slots) :
    t ≤ s.rcursor := by
  obtain ⟨hlt, hle⟩ := (h.producer p).sequence hn
  have hwn := h.wnext_le
  by_contra hgt
  exact mod_ne_of_window (by omega) (by omega) hslot

/-- In a run in which no producer gives up on a full ring, the cursors never cross and never go
back, no number is handed out twice, and no slot is written whose item is still to be consumed. -/
theorem cursors_never_cross {slots batchSize : Int} {slotSize : Nat} {c : Cfg}
    (hc : ngxDisruptorCreate slots slotSize batchSize = some c) {acts : List Action}
    (hgive : Trace.Always (step c) NotGivenUp .init acts) :
    let s := Trace.run (step c) .init acts
    (s.rcursor ≤ s.rnext ∧ s.rnext ≤ s.wcursor ∧ s.wcursor ≤ s.wnext ∧ s.wnext ≤ s.rcursor + c.slots) ∧
      (∀ before after, acts = before ++ after → (Trace.run (step c) .init before).toCore.Le s.toCore) ∧
      s.handed.Nodup ∧
      ∀ p sequence data done t, s.producers p = .copy sequence data done → 1 ≤ t → t ≤ s.wcursor →
        t &&& (c.slots - 1) = sequence &&& (c.slots - 1) → t ≤ s.rcursor := by
  obtain ⟨⟨k, hk⟩, hbatch⟩ := create_eq_some hc
  have h := inv_run hbatch hgive
  refine ⟨⟨h.rcursor_le, h.rnext_le, h.wcursor_le, h.wnext_le⟩, ?_, h.handed_nodup, ?_⟩
  · rintro before after rfl
    obtain ⟨hb, ha⟩ := (Trace.always_append (step c)).1 hgive
    rw [Trace.run_append]
    exact run_le hbatch (inv_run hbatch hb) ha
  · intro p sequence data done t hp _ ht hslot
    rw [hk, Nat.and_two_pow_sub_one_eq_mod, Nat.and_two_pow_sub_one_eq_mod, ← hk] at hslot
    exact committed_of_same_slot h (by rw [hp]; rfl) ht hslot

/-- One item through a ring of two slots. -/
def oneItem : List Action :=
  [.startup 1, .next 0 7, .producer 0, .producer 0, .producer 0, .publish 0 [0x61], .producer 0, .producer 0,
    .producer 0, .consumer 0, .consumer 0, .consumer 0, .consumer 0]

theorem cursors_never_cross_oneItem : (Trace.run (step ⟨2, 4, 1⟩) .init oneItem).rnext = 1 ∧
    (Trace.run (step ⟨2, 4, 1⟩) .init oneItem).handed.Nodup := by
  have hcreate : ngxDisruptorCreate 2 4 1 = some ⟨2, 4, 1⟩ := by decide
  have hgive : Trace.Always (step ⟨2, 4, 1⟩) NotGivenUp .init oneItem := by decide
  exact ⟨by decide, (cursors_never_cross hcreate hgive).2.2.1⟩

/-- Two producers of a ring that is not started. The first has seen room for number 2 when the second takes
it, finds the ring full then and comes back with 2 as well. -/
def lateProducer : List Action :=
  [.next 0 0, .producer 0, .producer 0, .producer 0,
    .next 1 0, .producer 1, .producer 1, .next 2 0, .producer 2, .producer 2, .producer 2,
    .producer 1, .producer 1, .producer 1, .producer 1]

theorem handed_twice : ngxDisruptorCreate 2 4 1 = some ⟨2, 4, 1⟩ ∧
    ¬ (Trace.run (step ⟨2, 4, 1⟩) .init lateProducer).handed.Nodup := by
  decide

end NgxPlus.Disruptor
