import Mathlib.Data.Finset.Card
import NgxPlus.Disruptor.Ring

/-!
# The disruptor: `ngx_disruptor_destroy` (`ngx_disruptor.c:225-242`)

| here | there |
| --- | --- |
| `Whole`        | the ring of `Ring.lean` with the life of the threads |
| `Life`, `running` | the two `ngx_atomic_fetch_add` of `_runing_threads` (`:107`, `:150`) |
| `Event.destroy`   | `disruptor->runing = '0'` (`:230`) |
| `Event.wakeUp`    | one `sleep(1)` of the loop that waits (`:233-238`), and the `free` |

`ngx_disruptor_startup` returns without doing anything while threads are counted. What other
threads do with the ring behind the `free` is not modelled.

The flag is compared with the character `'0'` where a producer enters (`:14`, `:46`), and tested
as a truth value in the loops (`:25`, `:118`, `:146`, `:148`). `'0'` is true, so no loop ends:
`ngx_disruptor_destroy` stops what it has to stop only if there is no consumer thread and nobody
is on the way to a number (`stops_iff`).
-/

namespace NgxPlus.Disruptor

/-- Of a consumer thread, around its two `fetch_add`. -/
inductive Life
  | fresh
  | inside
  | left
deriving DecidableEq, Repr

structure Whole where
  ring : State
  life : Nat → Life
  /-- `_runing_threads` is their number. -/
  running : Finset Nat
  destroying : Bool
  freed : Bool

inductive Event
  | ring (a : Action)
  | destroy
  /-- Whether the time is over. -/
  | wakeUp (elapsed : Bool)
deriving DecidableEq, Repr

def Whole.init : Whole := ⟨.init, fun _ => .fresh, ∅, false, false⟩

def stepThread (c : Cfg) (w : Whole) (i : Nat) : Whole :=
  match w.life i with
  | .fresh =>
    if w.ring.consumers i = .off then w
    else { w with life := Function.update w.life i .inside, running := insert i w.running }
  | .inside =>
    if w.ring.consumers i = .ended then
      { w with life := Function.update w.life i .left, running := w.running.erase i }
    else { w with ring := stepConsumer c w.ring i }
  | .left => w

def stepWhole (c : Cfg) (w : Whole) (e : Event) : Whole :=
  if w.freed then w
  else
    match e with
    | .ring (.consumer i) => stepThread c w i
    | .ring (.startup workThreads) =>
      if w.running.card > 0 then w else { w with ring := step c w.ring (.startup workThreads) }
    | .ring a => { w with ring := step c w.ring a }
    | .destroy => { w with ring := { w.ring with runing := stopped }, destroying := true }
    | .wakeUp elapsed =>
      if w.destroying ∧ (elapsed ∨ w.running.card = 0) then { w with freed := true } else w

/-- Once the flag is set. -/
def Whole.flagged (w : Whole) : Whole :=
  { w with ring := { w.ring with runing := stopped }, destroying := true }

theorem stepWhole_destroy (c : Cfg) {w : Whole} (hfreed : w.freed = false) :
    stepWhole c w .destroy = w.flagged := by
  unfold stepWhole
  rw [if_neg (by simp [hfreed])]
  rfl

/-! ## What stopping means -/

/-- At a test of `disruptor->runing`. -/
def Consumer.tests : Consumer → Bool
  | .idle | .retry _ _ | .again => true
  | _ => false

/-- Behind a test of the flag: the loop is left, the inner one for the outer one. -/
def LeavesLoop : Consumer → Consumer → Prop
  | .idle, y | .again, y => y = .ended
  | .retry _ _, y => y = .again
  | _, _ => True

def Leaves (c : Cfg) (w : Whole) : Event → Prop
  | .ring (.consumer i) => w.freed = false → w.life i = .inside → (w.ring.consumers i).tests = true →
    LeavesLoop (w.ring.consumers i) ((stepWhole c w (.ring (.consumer i))).ring.consumers i)
  | _ => True

def Consumer.inCallback : Consumer → Bool
  | .calling _ _ => true
  | _ => false

/-- The ring is freed under a counted thread only if a callback is executing. -/
def FreesQuiet (c : Cfg) (w : Whole) (e : Event) : Prop :=
  w.freed = false → (stepWhole c w e).freed = true → 0 < w.running.card →
    ∃ i, (w.ring.consumers i).inCallback = true

/-- Neither the flag is set nor threads are started again. -/
def Event.later : Event → Bool
  | .destroy | .ring (.startup _) => false
  | _ => true

/-- What holds from `w`, where the flag is set, to the end of `more`. -/
structure StopsIn (c : Cfg) (w : Whole) (more : List Event) : Prop where
  leaves : Trace.Always (stepWhole c) (Leaves c) w more
  /-- Behind a batch, no other is claimed. -/
  completes : ∀ as bs i, more = as ++ bs → (Trace.run (stepWhole c) w as).ring.consumers i = .again →
    (Trace.run (stepWhole c) w more).ring.consumers i ∈ [.again, .ended]
  /-- No sequence is claimed. -/
  wnext : (Trace.run (stepWhole c) w more).ring.wnext = w.ring.wnext
  frees : Trace.Always (stepWhole c) (FreesQuiet c) w more

def Stops (c : Cfg) (w : Whole) : Prop := ∀ more : List Event, (∀ e ∈ more, e.later = true) → StopsIn c w more

/-- In the loop of `ngx_disruptor_next`. -/
def Producer.inLoop : Producer → Bool
  | .read _ | .check _ _ | .blocked _ | .claim _ => true
  | _ => false

/-- No consumer thread was started, and no producer can claim a number. -/
structure Quiet (c : Cfg) (s : State) : Prop where
  consumers : ∀ i, s.consumers i = .off
  full : ∀ p, (s.producers p).inLoop = true → s.wnext = s.rcursor + c.slots
  claims : ∀ p, s.producers p ≠ .claim s.wnext

/-! ## Threads before the flag is set -/

/-- A started thread is not over, and only started ones are counted. -/
structure Counted (w : Whole) : Prop where
  started : ∀ i, w.ring.consumers i ≠ .off → w.ring.runing ≠ 0
  notEnded : ∀ i, w.ring.consumers i ≠ .ended
  counted : ∀ i ∈ w.running, w.ring.consumers i ≠ .off
  notLeft : ∀ i, w.life i ≠ .left
  notFreed : w.freed = false
  notDestroying : w.destroying = false

theorem counted_init : Counted .init where
  started _ h := absurd rfl h
  notEnded _ h := by simp [Whole.init, State.init] at h
  counted i h := by simp [Whole.init] at h
  notLeft _ h := by simp [Whole.init] at h
  notFreed := rfl
  notDestroying := rfl

/-- What a step of a consumer thread leaves alone. -/
structure OwnStep (s t : State) (i : Nat) (x : Consumer) : Prop where
  runing : t.runing = s.runing
  own : t.consumers i = x
  others : ∀ j, j ≠ i → t.consumers j = s.consumers j

theorem ownStep_setConsumer {s t : State} {i : Nat} {x : Consumer} (hr : t.runing = s.runing)
    (hc : t.consumers = (s.setConsumer i x).consumers) : OwnStep s t i x := by
  refine ⟨hr, ?_, fun j hj => ?_⟩
  · rw [hc]
    simp [State.setConsumer]
  · rw [hc]
    simp [State.setConsumer, Function.update_of_ne hj]

/-- A thread that runs goes on. -/
theorem stepConsumer_spec (c : Cfg) {s : State} {i : Nat} (hon : s.consumers i ≠ .off) (hend : s.consumers i ≠ .ended)
    (hrun : s.runing ≠ 0) : ∃ x, x ≠ .off ∧ x ≠ .ended ∧ OwnStep s (stepConsumer c s i) i x := by
  unfold stepConsumer
  split
  all_goals try split
  all_goals first
    | exact ⟨_, by simp, by simp, ownStep_setConsumer rfl rfl⟩
    | contradiction

theorem Counted.startup {w : Whole} (h : Counted w) (c : Cfg) (workThreads : Nat) :
    Counted { w with ring := step c w.ring (.startup workThreads) } where
  started i _ := by
    have hne : Disruptor.started ≠ 0 := by decide
    exact hne
  notEnded i := by
    simp only [step]
    split
    · simp
    · exact h.notEnded i
  counted i hi := by
    simp only [step]
    rw [if_neg (fun hoff => h.counted i hi hoff.2)]
    exact h.counted i hi
  notLeft := h.notLeft
  notFreed := h.notFreed
  notDestroying := h.notDestroying

/-- The steps of the producers. -/
theorem Counted.of_same {w : Whole} (h : Counted w) {s : State} (hc : s.consumers = w.ring.consumers)
    (hr : s.runing = w.ring.runing) : Counted { w with ring := s } where
  started i hi := by
    rw [hr]
    exact h.started i (hc ▸ hi)
  notEnded i := hc ▸ h.notEnded i
  counted i hi := hc ▸ h.counted i hi
  notLeft := h.notLeft
  notFreed := h.notFreed
  notDestroying := h.notDestroying

theorem Counted.stepThread {w : Whole} (h : Counted w) (c : Cfg) (i : Nat) : Counted (stepThread c w i) := by
  unfold Disruptor.stepThread
  cases hl : w.life i with
  | left => exact absurd hl (h.notLeft i)
  | fresh =>
    simp only
    split
    · exact h
    · rename_i hon
      refine ⟨h.started, h.notEnded, fun j hj => ?_, fun j => ?_, h.notFreed, h.notDestroying⟩
      · rcases Finset.mem_insert.1 hj with rfl | hj
        · exact hon
        · exact h.counted j hj
      · by_cases hji : j = i
        · subst hji
          simp
        · simpa [Function.update_of_ne hji] using h.notLeft j
  | inside =>
    simp only
    rw [if_neg (h.notEnded i)]
    by_cases hoff : w.ring.consumers i = .off
    · have hsame : stepConsumer c w.ring i = w.ring := by simp [stepConsumer, hoff]
      rw [hsame]
      exact h
    · obtain ⟨x, hxoff, hxend, hr, hown, hothers⟩ := stepConsumer_spec c hoff (h.notEnded i) (h.started i hoff)
      have hcases : ∀ j, (stepConsumer c w.ring i).consumers j = if j = i then x else w.ring.consumers j := by
        intro j
        by_cases hji : j = i
        · rw [hji, if_pos rfl, hown]
        · rw [if_neg hji, hothers j hji]
      refine ⟨fun j _ => ?_, fun j => ?_, fun j hj => ?_, h.notLeft, h.notFreed, h.notDestroying⟩
      · rw [hr]
        exact h.started i hoff
      · rw [hcases j]
        split
        · exact hxend
        · exact h.notEnded j
      · rw [hcases j]
        split
        · exact hxoff
        · exact h.counted j hj

theorem stepWhole_producer {c : Cfg} {w : Whole} (hfreed : w.freed = false) {a : Action} (ha : a.ofProducer = true) :
    stepWhole c w (.ring a) = { w with ring := step c w.ring a } := by
  unfold stepWhole
  rw [if_neg (by simp [hfreed])]
  cases a with
  | startup _ => simp [Action.ofProducer] at ha
  | consumer _ => simp [Action.ofProducer] at ha
  | _ => rfl

theorem stepWhole_consumer {c : Cfg} {w : Whole} (hfreed : w.freed = false) (i : Nat) :
    stepWhole c w (.ring (.consumer i)) = stepThread c w i := by
  unfold stepWhole
  rw [if_neg (by simp [hfreed])]

theorem Counted.step {w : Whole} (h : Counted w) (c : Cfg) (a : Action) : Counted (stepWhole c w (.ring a)) := by
  by_cases ha : a.ofProducer = true
  · rw [stepWhole_producer h.notFreed ha]
    obtain ⟨hc, hr⟩ := step_same c w.ring ha
    exact h.of_same hc hr
  · cases a with
    | startup workThreads =>
      unfold stepWhole
      rw [if_neg (by simp [h.notFreed])]
      simp only
      split
      · exact h
      · exact h.startup c workThreads
    | consumer i =>
      rw [stepWhole_consumer h.notFreed]
      exact h.stepThread c i
    | _ => simp [Action.ofProducer] at ha

theorem counted_run (c : Cfg) (acts : List Action) : Counted (Trace.run (stepWhole c) .init (acts.map .ring)) := by
  have hrun : ∀ (acts : List Action) (w : Whole), Counted w → Counted (Trace.run (stepWhole c) w (acts.map .ring)) := by
    intro acts
    induction acts with
    | nil => exact fun w h => h
    | cons a acts ih => exact fun w h => ih _ (h.step c a)
  exact hrun acts .init counted_init

/-! ## Without threads everything stands still -/

/-- Behind the flag, with no thread and no way to a number. -/
structure Still (c : Cfg) (n : Nat) (w : Whole) : Prop where
  runing : w.ring.runing = stopped
  consumers : ∀ i, w.ring.consumers i = .off
  running : w.running = ∅
  wnext : w.ring.wnext = n
  full : ∀ p, (w.ring.producers p).inLoop = true → w.ring.wnext = w.ring.rcursor + c.slots
  claims : ∀ p, w.ring.producers p ≠ .claim w.ring.wnext

/-- A producer moves, not into the loop and not to a compare-and-set that would succeed. -/
theorem Still.producer {c : Cfg} {n : Nat} {w : Whole} (h : Still c n w) {s : State} {p : Nat} {x : Producer}
    (hp : s.producers = (w.ring.setProducer p x).producers) (hc : s.consumers = w.ring.consumers)
    (hr : s.runing = w.ring.runing) (hn : s.wnext = w.ring.wnext) (hrc : s.rcursor = w.ring.rcursor)
    (hloop : x.inLoop = true → (w.ring.producers p).inLoop = true) (hclaim : x ≠ .claim w.ring.wnext) :
    Still c n { w with ring := s } := by
  have hcases : ∀ q, s.producers q = if q = p then x else w.ring.producers q := by
    intro q
    rw [hp]
    by_cases hq : q = p
    · subst hq
      simp [State.setProducer]
    · simp [State.setProducer, hq]
  refine ⟨hr.trans h.runing, fun i => by rw [hc]; exact h.consumers i, h.running, hn.trans h.wnext, ?_, ?_⟩
  · intro q hq
    simp only at hq ⊢
    rw [hn, hrc]
    rw [hcases q] at hq
    split at hq
    · exact h.full p (hloop hq)
    · exact h.full q hq
  · intro q
    simp only
    rw [hn, hcases q]
    split
    · exact hclaim
    · exact h.claims q

theorem Still.stepProducer {c : Cfg} {n : Nat} {w : Whole} (h : Still c n w) (p : Nat) :
    Still c n { w with ring := stepProducer c w.ring p } := by
  have hrun : w.ring.runing ≠ 0 := by
    rw [h.runing]
    decide
  have hloop : ∀ {y : Producer} {x : Producer}, w.ring.producers p = y → y.inLoop = true →
      (x.inLoop = true → (w.ring.producers p).inLoop = true) := fun hp hy _ => hp ▸ hy
  unfold Disruptor.stepProducer
  cases hp : w.ring.producers p with
  | out => exact h
  | has m => exact h
  | read next => exact h.producer rfl rfl rfl rfl rfl (hloop hp rfl) (by simp)
  | check current next =>
    simp only
    split
    · exact h.producer rfl rfl rfl rfl rfl (hloop hp rfl) (by simp)
    · rename_i hne
      have hfull := h.full p (by rw [hp]; rfl)
      refine h.producer rfl rfl rfl rfl rfl (hloop hp rfl) fun heq => hne ?_
      rw [← hfull]
      exact Producer.claim.inj heq
  | blocked next =>
    simp only
    rw [if_pos hrun]
    exact h.producer rfl rfl rfl rfl rfl (hloop hp rfl) (by simp)
  | claim current =>
    simp only
    have hne : w.ring.wnext ≠ current := fun heq => h.claims p (by rw [hp, heq])
    rw [if_neg hne]
    exact h.producer rfl rfl rfl rfl rfl (hloop hp rfl) (by simp)
  | copy m data done =>
    simp only
    split
    · exact h.producer (x := .copy m data (done + 1)) rfl rfl rfl rfl rfl (by simp [Producer.inLoop]) (by simp)
    · exact h.producer rfl rfl rfl rfl rfl (by simp [Producer.inLoop]) (by simp)
  | publish m data =>
    simp only
    split
    · exact h.producer (x := .out) rfl rfl rfl rfl rfl (by simp [Producer.inLoop]) (by simp)
    · exact h

theorem Still.step {c : Cfg} {n : Nat} {w : Whole} (h : Still c n w) {e : Event} (he : e.later = true) :
    Still c n (stepWhole c w e) := by
  by_cases hfreed : w.freed = true
  · have hsame : stepWhole c w e = w := if_pos hfreed
    rw [hsame]
    exact h
  · have hopen : w.freed = false := by simpa using hfreed
    cases e with
    | destroy => simp [Event.later] at he
    | wakeUp elapsed =>
      unfold stepWhole
      rw [if_neg hfreed]
      simp only
      split
      · exact ⟨h.runing, h.consumers, h.running, h.wnext, h.full, h.claims⟩
      · exact h
    | ring a =>
      cases a with
      | startup _ => simp [Event.later] at he
      | consumer i =>
        rw [stepWhole_consumer hopen]
        have hsame : stepConsumer c w.ring i = w.ring := by simp [stepConsumer, h.consumers i]
        unfold stepThread
        cases w.life i with
        | fresh =>
          simp only
          rw [if_pos (h.consumers i)]
          exact h
        | inside =>
          simp only
          rw [if_neg (by simp [h.consumers i]), hsame]
          exact h
        | left => exact h
      | producer p =>
        rw [stepWhole_producer hopen rfl]
        exact h.stepProducer p
      | next p garbage =>
        rw [stepWhole_producer hopen rfl]
        have hsame : Disruptor.step c w.ring (.next p garbage) = w.ring := by
          unfold Disruptor.step
          simp only
          split
          · rw [if_pos h.runing]
          · rfl
        rw [hsame]
        exact h
      | publish p data =>
        rw [stepWhole_producer hopen rfl]
        unfold Disruptor.step
        simp only
        split
        · rw [if_pos h.runing]
          exact h.producer rfl rfl rfl rfl rfl (by simp [Producer.inLoop]) (by simp)
        · exact h

theorem Still.stopsIn {c : Cfg} {n : Nat} {w : Whole} (h : Still c n w) (more : List Event)
    (hmore : ∀ e ∈ more, e.later = true) : StopsIn c w more := by
  have hlater : ∀ {es : List Event} {w : Whole}, (∀ e ∈ es, e.later = true) →
      Trace.Always (stepWhole c) (fun _ e => e.later = true) w es := by
    intro es
    induction es with
    | nil => exact fun _ => trivial
    | cons e es ih => exact fun he => ⟨he e List.mem_cons_self, ih fun e' he' => he e' (List.mem_cons_of_mem _ he')⟩
  have hrun : ∀ es, (∀ e ∈ es, e.later = true) → Still c n (Trace.run (stepWhole c) w es) := fun es hes =>
    Trace.run_inv (stepWhole c) (fun _ _ h he => h.step he) h (hlater hes)
  refine ⟨?_, ?_, (hrun more hmore).wnext.trans h.wnext.symm, ?_⟩
  · refine Trace.always_of_inv (stepWhole c) (I := Still c n) (fun w e hw _ => ?_) (fun _ _ h he => h.step he) h
      (hlater hmore)
    cases e with
    | ring a =>
      cases a with
      | consumer i =>
        intro _ _ ht
        simp [hw.consumers i, Consumer.tests] at ht
      | _ => trivial
    | _ => trivial
  · rintro as bs i rfl hagain
    have has := (hrun as fun e he => hmore e (List.mem_append_left _ he)).consumers i
    rw [hagain] at has
    simp at has
  · refine Trace.always_of_inv (stepWhole c) (I := Still c n) (fun w e hw _ => ?_) (fun _ _ h he => h.step he) h
      (hlater hmore)
    intro _ _ hpos
    simp [hw.running] at hpos

/-! ## A consumer thread gets to the flag, and goes on -/

/-- Behind the flag, before the `free`, a counted thread. -/
structure Inside (w : Whole) (i : Nat) : Prop where
  notFreed : w.freed = false
  life : w.life i = .inside
  runing : w.ring.runing = stopped

/-- `k` steps of thread `i`. -/
def alone (i k : Nat) : List Event := List.replicate k (.ring (.consumer i))

/-- By itself, the thread comes to a test of the flag. -/
def ComesToTest (c : Cfg) (i : Nat) (w : Whole) : Prop :=
  ∃ k, Inside (Trace.run (stepWhole c) w (alone i k)) i ∧
    ((Trace.run (stepWhole c) w (alone i k)).ring.consumers i).tests = true

section Thread

variable {c : Cfg} {i : Nat} {w : Whole}

theorem ComesToTest.of_step (h : ComesToTest c i (stepWhole c w (.ring (.consumer i)))) : ComesToTest c i w := by
  obtain ⟨k, hin, htest⟩ := h
  exact ⟨k + 1, hin, htest⟩

theorem comesToTest_of_tests (hin : Inside w i) (h : (w.ring.consumers i).tests = true) : ComesToTest c i w :=
  ⟨0, hin, h⟩

theorem stepWhole_inside (hin : Inside w i) (hend : w.ring.consumers i ≠ .ended) :
    stepWhole c w (.ring (.consumer i)) = { w with ring := stepConsumer c w.ring i } := by
  rw [stepWhole_consumer hin.notFreed]
  unfold stepThread
  rw [hin.life]
  exact if_neg hend

/-- A step of the thread, with what is in its locals and in the cursors afterwards. -/
theorem comesToTest_step {x : Consumer} (hin : Inside w i) {s : State} (hs : stepConsumer c w.ring i = s)
    (hend : w.ring.consumers i ≠ .ended) (hc : s.consumers = (w.ring.setConsumer i x).consumers)
    (hr : s.runing = w.ring.runing)
    (hnext : ∀ w', Inside w' i → w'.ring.consumers i = x → w'.ring.rnext = s.rnext → ComesToTest c i w') :
    ComesToTest c i w := by
  refine ComesToTest.of_step ?_
  rw [stepWhole_inside hin hend, hs]
  refine hnext _ ⟨hin.notFreed, hin.life, hr.trans hin.runing⟩ ?_ rfl
  change s.consumers i = x
  rw [hc]
  simp [State.setConsumer]

theorem comesToTest_commit (hin : Inside w i) {current next : Nat} (h : w.ring.consumers i = .commit current next) :
    ComesToTest c i w := by
  have hend : w.ring.consumers i ≠ .ended := by simp [h]
  by_cases hr : w.ring.rcursor = current
  · have hs : stepConsumer c w.ring i = { w.ring.setConsumer i .again with
        rcursor := next, committed := w.ring.committed ++ [(current, next)] } := by
      simp only [stepConsumer, h]
      exact if_pos hr
    exact comesToTest_step (x := .again) hin hs hend rfl rfl fun w' hin' hx _ =>
      comesToTest_of_tests hin' (by rw [hx]; rfl)
  · have hs : stepConsumer c w.ring i = w.ring.setConsumer i (.retry current next) := by
      simp only [stepConsumer, h]
      exact if_neg hr
    exact comesToTest_step hin hs hend rfl rfl fun w' hin' hx _ => comesToTest_of_tests hin' (by rw [hx]; rfl)

theorem comesToTest_taken (hin : Inside w i) {current next : Nat} (h : w.ring.consumers i = .taken current next) :
    ComesToTest c i w := by
  have hs : stepConsumer c w.ring i = { w.ring.setConsumer i (.calling current next) with
      delivered := w.ring.delivered ++ [(current, next)] } := by simp only [stepConsumer, h]
  refine comesToTest_step (x := .calling current next) hin hs (by simp [h]) rfl rfl fun w' hin' hx _ => ?_
  have hs' : stepConsumer c w'.ring i = w'.ring.setConsumer i (.commit current next) := by
    simp only [stepConsumer, hx]
  exact comesToTest_step hin' hs' (by simp [hx]) rfl rfl fun w'' hin'' hx'' _ => comesToTest_commit hin'' hx''

theorem comesToTest_claim_now (hin : Inside w i) {next : Nat} (h : w.ring.consumers i = .claim w.ring.rnext next) :
    ComesToTest c i w := by
  have hs : stepConsumer c w.ring i = { w.ring.setConsumer i (.taken w.ring.rnext next) with
      rnext := next, claimed := w.ring.claimed ++ [(w.ring.rnext, next)] } := by
    simp only [stepConsumer, h]
    exact if_pos trivial
  exact comesToTest_step (x := .taken w.ring.rnext next) hin hs (by simp [h]) rfl rfl fun w' hin' hx _ =>
    comesToTest_taken hin' hx

/-- From where `current` was read to the compare-and-set, when that leads on for every `next`. -/
theorem comesToTest_seen {current : Nat}
    (hclaim : ∀ w' next, Inside w' i → w'.ring.rnext = w.ring.rnext → w'.ring.consumers i = .claim current next →
      ComesToTest c i w') (hin : Inside w i)
    (h : w.ring.consumers i = .seen current ∨ w.ring.consumers i = .limit current ∨
      w.ring.consumers i = .clamp current) : ComesToTest c i w := by
  have hclamp : ∀ w', Inside w' i → w'.ring.rnext = w.ring.rnext → w'.ring.consumers i = .clamp current →
      ComesToTest c i w' := by
    intro w' hin' hr' hx
    have hs : stepConsumer c w'.ring i = w'.ring.setConsumer i (.claim current
        (if w'.ring.wcursor - current > c.batchSize then current + c.batchSize else w'.ring.wcursor)) := by
      simp only [stepConsumer, hx]
      split
      · rfl
      · rfl
    exact comesToTest_step hin' hs (by simp [hx]) rfl rfl fun w'' hin'' hx'' hr'' =>
      hclaim w'' _ hin'' (hr''.trans hr') hx''
  have hlimit : ∀ w', Inside w' i → w'.ring.rnext = w.ring.rnext → w'.ring.consumers i = .limit current →
      ComesToTest c i w' := by
    intro w' hin' hr' hx
    by_cases hover : current + c.batchSize > w'.ring.wcursor
    · have hs : stepConsumer c w'.ring i = w'.ring.setConsumer i (.clamp current) := by
        simp only [stepConsumer, hx]
        exact if_pos hover
      exact comesToTest_step hin' hs (by simp [hx]) rfl rfl fun w'' hin'' hx'' hr'' =>
        hclamp w'' hin'' (hr''.trans hr') hx''
    · have hs : stepConsumer c w'.ring i = w'.ring.setConsumer i (.claim current (current + c.batchSize)) := by
        simp only [stepConsumer, hx]
        exact if_neg hover
      exact comesToTest_step hin' hs (by simp [hx]) rfl rfl fun w'' hin'' hx'' hr'' =>
        hclaim w'' _ hin'' (hr''.trans hr') hx''
  rcases h with h | h | h
  · by_cases hempty : current = w.ring.wcursor
    · have hs : stepConsumer c w.ring i = w.ring.setConsumer i .idle := by
        simp only [stepConsumer, h]
        exact if_pos hempty
      exact comesToTest_step hin hs (by simp [h]) rfl rfl fun w' hin' hx _ =>
        comesToTest_of_tests hin' (by rw [hx]; rfl)
    · have hs : stepConsumer c w.ring i = w.ring.setConsumer i (.limit current) := by
        simp only [stepConsumer, h]
        exact if_neg hempty
      exact comesToTest_step hin hs (by simp [h]) rfl rfl fun w' hin' hx hr' => hlimit w' hin' hr' hx
  · exact hlimit w hin rfl h
  · exact hclamp w hin rfl h

theorem comesToTest_prepare (hin : Inside w i) (h : w.ring.consumers i = .prepare) : ComesToTest c i w := by
  have hs : stepConsumer c w.ring i = w.ring.setConsumer i (.seen w.ring.rnext) := by simp only [stepConsumer, h]
  refine comesToTest_step hin hs (by simp [h]) rfl rfl fun w' hin' hx hr' => ?_
  have hr : w.ring.rnext = w'.ring.rnext := hr'.symm
  rw [hr] at hx
  refine comesToTest_seen (fun w'' next hin'' hr'' hx'' => ?_) hin' (.inl hx)
  rw [← hr''] at hx''
  exact comesToTest_claim_now hin'' hx''

theorem comesToTest_claim (hin : Inside w i) {current next : Nat} (h : w.ring.consumers i = .claim current next) :
    ComesToTest c i w := by
  by_cases hr : w.ring.rnext = current
  · subst hr
    exact comesToTest_claim_now hin h
  · have hs : stepConsumer c w.ring i = w.ring.setConsumer i .prepare := by
      simp only [stepConsumer, h]
      exact if_neg hr
    exact comesToTest_step hin hs (by simp [h]) rfl rfl fun w' hin' hx _ => comesToTest_prepare hin' hx

/-- Wherever a counted thread is. -/
theorem comesToTest_inside (hin : Inside w i) (hoff : w.ring.consumers i ≠ .off)
    (hend : w.ring.consumers i ≠ .ended) : ComesToTest c i w := by
  have hstale : ∀ {current : Nat} (w' : Whole) (next : Nat), Inside w' i → w'.ring.rnext = w.ring.rnext →
      w'.ring.consumers i = .claim current next → ComesToTest c i w' :=
    fun _ _ hin' _ hx => comesToTest_claim hin' hx
  cases h : w.ring.consumers i with
  | off => exact absurd h hoff
  | ended => exact absurd h hend
  | prepare => exact comesToTest_prepare hin h
  | seen current => exact comesToTest_seen hstale hin (.inl h)
  | limit current => exact comesToTest_seen hstale hin (.inr (.inl h))
  | clamp current => exact comesToTest_seen hstale hin (.inr (.inr h))
  | claim current next => exact comesToTest_claim hin h
  | taken current next => exact comesToTest_taken hin h
  | calling current next =>
    have hs : stepConsumer c w.ring i = w.ring.setConsumer i (.commit current next) := by simp only [stepConsumer, h]
    exact comesToTest_step hin hs hend rfl rfl fun w' hin' hx _ => comesToTest_commit hin' hx
  | commit current next => exact comesToTest_commit hin h
  | idle => exact comesToTest_of_tests hin (by rw [h]; rfl)
  | retry current next => exact comesToTest_of_tests hin (by rw [h]; rfl)
  | again => exact comesToTest_of_tests hin (by rw [h]; rfl)

/-- `'0'` is true: the loop goes on. -/
theorem goes_on (hin : Inside w i) (ht : (w.ring.consumers i).tests = true) :
    ¬ Leaves c w (.ring (.consumer i)) := by
  intro hleaves
  have hrun : w.ring.runing ≠ 0 := by
    rw [hin.runing]
    decide
  have hleft := hleaves hin.notFreed hin.life ht
  have hend : w.ring.consumers i ≠ .ended := by
    intro h
    rw [h] at ht
    simp [Consumer.tests] at ht
  rw [stepWhole_inside hin hend] at hleft
  cases h : w.ring.consumers i with
  | idle => simp [h, LeavesLoop, stepConsumer, hrun, State.setConsumer] at hleft
  | retry current next => simp [h, LeavesLoop, stepConsumer, hrun, State.setConsumer] at hleft
  | again => simp [h, LeavesLoop, stepConsumer, hrun, State.setConsumer] at hleft
  | _ =>
    rw [h] at ht
    simp [Consumer.tests] at ht

theorem not_stops_of_comesToTest (h : ComesToTest c i w) : ¬ Stops c w := by
  intro hstops
  obtain ⟨k, hin, ht⟩ := h
  have hlater : ∀ e ∈ alone i k ++ [.ring (.consumer i)], e.later = true := by
    intro e he
    rcases List.mem_append.1 he with he | he
    · rw [List.eq_of_mem_replicate he]
      rfl
    · rw [List.mem_singleton.1 he]
      rfl
  have hlast := ((Trace.always_concat (stepWhole c)).1 (hstops _ hlater).leaves).2
  exact goes_on hin ht hlast

/-- A started thread, counted or not yet. -/
theorem not_stops_of_started (hc : Counted w) (hoff : w.ring.consumers i ≠ .off) : ¬ Stops c w.flagged := by
  apply not_stops_of_comesToTest
  cases hl : w.life i with
  | left => exact absurd hl (hc.notLeft i)
  | inside => exact comesToTest_inside ⟨hc.notFreed, hl, rfl⟩ hoff (hc.notEnded i)
  | fresh =>
    refine ComesToTest.of_step ?_
    have hstep : stepWhole c w.flagged (.ring (.consumer i)) =
        { w.flagged with life := Function.update w.life i .inside, running := insert i w.running } := by
      rw [stepWhole_consumer (w := w.flagged) hc.notFreed]
      unfold stepThread
      have hlife : w.flagged.life i = .fresh := hl
      rw [hlife]
      exact if_neg hoff
    rw [hstep]
    exact comesToTest_inside ⟨hc.notFreed, by simp, rfl⟩ hoff (hc.notEnded i)

end Thread

/-! ## A producer in the loop claims a number -/

/-- By itself, the producer moves `wnext` away from `n`. -/
def ComesToClaim (c : Cfg) (p n : Nat) (w : Whole) : Prop :=
  ∃ k, (Trace.run (stepWhole c) w (List.replicate k (.ring (.producer p)))).ring.wnext ≠ n

section Claim

variable {c : Cfg} {p n : Nat} {w : Whole}

theorem comesToClaim_step (hfreed : w.freed = false)
    (h : ComesToClaim c p n { w with ring := stepProducer c w.ring p }) : ComesToClaim c p n w := by
  obtain ⟨k, hk⟩ := h
  refine ⟨k + 1, ?_⟩
  rw [List.replicate_succ, Trace.run_cons, stepWhole_producer hfreed rfl]
  exact hk

theorem comesToClaim_now (hfreed : w.freed = false) (hp : w.ring.producers p = .claim w.ring.wnext) :
    ComesToClaim c p w.ring.wnext w := by
  refine comesToClaim_step hfreed ⟨0, ?_⟩
  simp [stepProducer, hp]

theorem comesToClaim_check (hfreed : w.freed = false) (hroom : w.ring.wnext ≠ w.ring.rcursor + c.slots) (next : Nat)
    (hp : w.ring.producers p = .check w.ring.wnext next) : ComesToClaim c p w.ring.wnext w := by
  refine comesToClaim_step hfreed ?_
  have hs : stepProducer c w.ring p = w.ring.setProducer p (.claim w.ring.wnext) := by
    simp only [stepProducer, hp]
    exact if_neg hroom
  rw [hs]
  exact comesToClaim_now hfreed (by simp [State.setProducer])

theorem comesToClaim_read (hfreed : w.freed = false) (hroom : w.ring.wnext ≠ w.ring.rcursor + c.slots) (next : Nat)
    (hp : w.ring.producers p = .read next) : ComesToClaim c p w.ring.wnext w := by
  refine comesToClaim_step hfreed ?_
  have hs : stepProducer c w.ring p = w.ring.setProducer p (.check w.ring.wnext next) := by
    simp only [stepProducer, hp]
  rw [hs]
  exact comesToClaim_check hfreed hroom next (by simp [State.setProducer])

theorem comesToClaim_claim (hfreed : w.freed = false) (hroom : w.ring.wnext ≠ w.ring.rcursor + c.slots)
    {current : Nat} (hp : w.ring.producers p = .claim current) : ComesToClaim c p w.ring.wnext w := by
  by_cases hw : w.ring.wnext = current
  · subst hw
    exact comesToClaim_now hfreed hp
  · refine comesToClaim_step hfreed ?_
    have hs : stepProducer c w.ring p = w.ring.setProducer p (.read (current + 1)) := by
      simp only [stepProducer, hp]
      exact if_neg hw
    rw [hs]
    exact comesToClaim_read hfreed hroom (current + 1) (by simp [State.setProducer])

/-- The loop tests the flag on a full ring only, and goes on then as well. -/
theorem comesToClaim_inLoop (hfreed : w.freed = false) (hrun : w.ring.runing ≠ 0)
    (hroom : w.ring.wnext ≠ w.ring.rcursor + c.slots) (hloop : (w.ring.producers p).inLoop = true) :
    ComesToClaim c p w.ring.wnext w := by
  have hblocked : ∀ (w : Whole) (next : Nat), w.freed = false → w.ring.runing ≠ 0 →
      w.ring.wnext ≠ w.ring.rcursor + c.slots → w.ring.producers p = .blocked next →
      ComesToClaim c p w.ring.wnext w := by
    intro w next hfreed hrun hroom hp
    refine comesToClaim_step hfreed ?_
    have hs : stepProducer c w.ring p = w.ring.setProducer p (.read next) := by
      simp only [stepProducer, hp]
      exact if_pos hrun
    rw [hs]
    exact comesToClaim_read hfreed hroom next (by simp [State.setProducer])
  cases hp : w.ring.producers p with
  | read next => exact comesToClaim_read hfreed hroom next hp
  | claim current => exact comesToClaim_claim hfreed hroom hp
  | blocked next => exact hblocked w next hfreed hrun hroom hp
  | check current next =>
    refine comesToClaim_step hfreed ?_
    by_cases hfull : current = w.ring.rcursor + c.slots
    · have hs : stepProducer c w.ring p = w.ring.setProducer p (.blocked next) := by
        simp only [stepProducer, hp]
        exact if_pos hfull
      rw [hs]
      exact hblocked _ next hfreed hrun hroom (by simp [State.setProducer])
    · have hs : stepProducer c w.ring p = w.ring.setProducer p (.claim current) := by
        simp only [stepProducer, hp]
        exact if_neg hfull
      rw [hs]
      have hnow : (w.ring.setProducer p (.claim current)).producers p = .claim current := by simp [State.setProducer]
      exact comesToClaim_claim (w := { w with ring := w.ring.setProducer p (.claim current) }) hfreed hroom hnow
  | _ =>
    rw [hp] at hloop
    simp [Producer.inLoop] at hloop

theorem not_stops_of_comesToClaim (h : ComesToClaim c p w.ring.wnext w) : ¬ Stops c w := by
  intro hstops
  obtain ⟨k, hk⟩ := h
  refine hk (hstops _ fun e he => ?_).wnext
  rw [List.eq_of_mem_replicate he]
  rfl

end Claim

/-- **The disruptor is stopped exactly if nothing runs**: behind `ngx_disruptor_destroy`, in
whatever order the rest goes on, all loops end, no number is claimed and the ring is freed under
a callback at most, if and only if there are no consumer threads and no producer can get to a
number. -/
theorem stops_iff (c : Cfg) (acts : List Action) :
    let w := Trace.run (stepWhole c) .init (acts.map .ring)
    Stops c (stepWhole c w .destroy) ↔ Quiet c w.ring := by
  intro w
  have hc : Counted w := counted_run c acts
  rw [stepWhole_destroy c hc.notFreed]
  constructor
  · intro hstops
    refine ⟨fun i => ?_, fun p hloop => ?_, fun p hp => ?_⟩
    · by_contra hoff
      exact not_stops_of_started hc hoff hstops
    · by_contra hroom
      have hrun : w.flagged.ring.runing ≠ 0 := by
        change stopped ≠ 0
        decide
      exact not_stops_of_comesToClaim (comesToClaim_inLoop (w := w.flagged) hc.notFreed hrun hroom hloop) hstops
    · exact not_stops_of_comesToClaim (comesToClaim_now (w := w.flagged) hc.notFreed hp) hstops
  · intro hquiet more hmore
    have hnone : w.running = ∅ := Finset.eq_empty_of_forall_notMem fun i hi => hc.counted i hi (hquiet.consumers i)
    have hstill : Still c w.ring.wnext w.flagged :=
      ⟨rfl, hquiet.consumers, hnone, rfl, hquiet.full, hquiet.claims⟩
    exact hstill.stopsIn more hmore

/-- One consumer thread, which waits for an item. -/
def waitingThread : List Action := [.startup 1, .consumer 0, .consumer 0, .consumer 0]

/-- It goes on behind `ngx_disruptor_destroy`, and the ring is freed under it. -/
theorem destroy_leaves_threads : ngxDisruptorCreate 2 4 1 = some ⟨2, 4, 1⟩ ∧
    ¬ ∀ acts : List Action, Stops ⟨2, 4, 1⟩
      (stepWhole ⟨2, 4, 1⟩ (Trace.run (stepWhole ⟨2, 4, 1⟩) .init (acts.map .ring)) .destroy) := by
  refine ⟨by decide, fun h => ?_⟩
  have hleft : Consumer.prepare = Consumer.ended :=
    (h waitingThread [.ring (.consumer 0)] (by decide)).leaves.1 rfl rfl rfl
  exact absurd hleft (by decide)

end NgxPlus.Disruptor
