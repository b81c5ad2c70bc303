import NgxPlus.Disruptor.Ring

/-!
# The disruptor: every number that is taken is published

A number taken by `ngx_disruptor_next` is released by the compare-and-set of `wcursor` in
`ngx_disruptor_publish` (`ngx_disruptor.c:54-62`), strictly in turn. `Held` says that the numbers
between `wcursor` and `wnext` all have a producer that will get there. `step_cases` is what a step
can do to them: take one, publish one, or drop one. The last is the return of
`ngx_disruptor_publish` for data longer than a slot (`:50`), behind which nobody publishes the
number and `wcursor` stays below it (`lost_run`).
-/

namespace NgxPlus.Disruptor

open ByteMem

/-- Between `ngx_disruptor_next` and the end of `ngx_disruptor_publish`. -/
def Idle (s : State) : Prop := ∀ p, (s.producers p).sequence = none

structure Held (s : State) : Prop where
  holder : ∀ n, s.wcursor < n → n ≤ s.wnext → ∃ p, (s.producers p).sequence = some n
  running : s.runing ≠ stopped

theorem Held.idle {s : State} (h : Held s) (hle : s.wcursor ≤ s.wnext) (hidle : Idle s) : s.wcursor = s.wnext := by
  by_contra hne
  obtain ⟨p, hp⟩ := h.holder s.wnext (by omega) le_rfl
  rw [hidle p] at hp
  exact absurd hp (by simp)

/-! ## What a step does to the numbers -/

/-- The cursors of the producers stay, and so does what each producer has. -/
structure SameNumbers (s t : State) : Prop where
  wcursor : t.wcursor = s.wcursor
  wnext : t.wnext = s.wnext
  sequence : ∀ p, (t.producers p).sequence = (s.producers p).sequence

/-- What changes is what producer `p` has. -/
structure Moved (s t : State) (p : Nat) (number : Option Nat) (wcursor wnext : Nat) : Prop where
  wcursor : t.wcursor = wcursor
  wnext : t.wnext = wnext
  own : (t.producers p).sequence = number
  others : ∀ q, q ≠ p → (t.producers q).sequence = (s.producers q).sequence

/-- What a step can do to the numbers. -/
inductive NumberStep (c : Cfg) (s : State) (a : Action) (t : State) : Prop
  | same (h : SameNumbers s t)
  | take (p : Nat) (hfree : (s.producers p).sequence = none)
      (h : Moved s t p (some (s.wnext + 1)) s.wcursor (s.wnext + 1))
  | publish (p : Nat) (hhas : (s.producers p).sequence = some (s.wcursor + 1))
      (h : Moved s t p none (s.wcursor + 1) s.wnext)
  | drop (p n : Nat) (data : Bytes) (ha : a = .publish p data) (hhas : s.producers p = .has n)
      (hwhy : s.runing = stopped ∨ c.slotSize < data.length) (h : Moved s t p none s.wcursor s.wnext)

theorem sameNumbers_setProducer {s : State} {p : Nat} {x : Producer} (hx : x.sequence = (s.producers p).sequence) :
    SameNumbers s (s.setProducer p x) := by
  refine ⟨rfl, rfl, fun q => ?_⟩
  by_cases hq : q = p
  · subst hq
    simp [State.setProducer, hx]
  · simp [State.setProducer, Function.update_of_ne hq]

theorem moved_setProducer (s : State) (p : Nat) (x : Producer) {wcursor wnext : Nat} {t : State}
    (hp : t.producers = (s.setProducer p x).producers) (hw : t.wcursor = wcursor) (hn : t.wnext = wnext) :
    Moved s t p x.sequence wcursor wnext := by
  refine ⟨hw, hn, ?_, fun q hq => ?_⟩
  · rw [hp]
    simp [State.setProducer]
  · rw [hp]
    simp [State.setProducer, Function.update_of_ne hq]

theorem stepConsumer_numbers (c : Cfg) (s : State) (i : Nat) : SameNumbers s (stepConsumer c s i) := by
  unfold stepConsumer
  split
  all_goals try split
  all_goals exact ⟨rfl, rfl, fun _ => rfl⟩

theorem stepProducer_numbers (c : Cfg) (s : State) (p : Nat) (hgive : NotGivenUp s (.producer p)) :
    NumberStep c s (.producer p) (stepProducer c s p) := by
  unfold stepProducer
  cases hp : s.producers p with
  | out => exact .same ⟨rfl, rfl, fun _ => rfl⟩
  | has n => exact .same ⟨rfl, rfl, fun _ => rfl⟩
  | read next => exact .same (sameNumbers_setProducer (by rw [hp]; rfl))
  | check current next =>
    simp only
    split
    · exact .same (sameNumbers_setProducer (by rw [hp]; rfl))
    · exact .same (sameNumbers_setProducer (by rw [hp]; rfl))
  | blocked next =>
    have hrun : s.runing ≠ 0 := hgive (by rw [hp]; rfl)
    simp only
    rw [if_pos hrun]
    exact .same (sameNumbers_setProducer (by rw [hp]; rfl))
  | claim current =>
    simp only
    split
    · rename_i heq
      subst heq
      exact .take p (by rw [hp]; rfl) (moved_setProducer s p (.has (s.wnext + 1)) rfl rfl rfl)
    · exact .same (sameNumbers_setProducer (by rw [hp]; rfl))
  | copy n data done =>
    simp only
    split
    · obtain ⟨hw, hn, hs⟩ := sameNumbers_setProducer (x := .copy n data (done + 1)) (by rw [hp]; rfl)
      exact .same ⟨hw, hn, hs⟩
    · exact .same (sameNumbers_setProducer (by rw [hp]; rfl))
  | publish n data =>
    simp only
    split
    · rename_i heq
      subst heq
      exact .publish p (by rw [hp]; rfl) (moved_setProducer s p .out rfl rfl rfl)
    · exact .same ⟨rfl, rfl, fun _ => rfl⟩

theorem step_cases {c : Cfg} {s : State} {a : Action} (hgive : NotGivenUp s a) : NumberStep c s a (step c s a) := by
  cases a with
  | startup workThreads => exact .same ⟨rfl, rfl, fun _ => rfl⟩
  | consumer i => exact .same (stepConsumer_numbers c s i)
  | producer p => exact stepProducer_numbers c s p hgive
  | next p garbage =>
    unfold step
    simp only
    split
    · rename_i hp
      split
      · exact .same ⟨rfl, rfl, fun _ => rfl⟩
      · exact .same (sameNumbers_setProducer (by rw [hp]; rfl))
    · exact .same ⟨rfl, rfl, fun _ => rfl⟩
  | publish p data =>
    unfold step
    simp only
    split
    · rename_i n hp
      split
      · rename_i hstop
        exact .drop p n data rfl hp (.inl hstop) (moved_setProducer s p .out rfl rfl rfl)
      · split
        · rename_i hlong
          exact .drop p n data rfl hp (.inr hlong) (moved_setProducer s p .out rfl rfl rfl)
        · obtain ⟨hw, hn, hs⟩ := sameNumbers_setProducer (x := .copy n data 0) (by rw [hp]; rfl)
          exact .same ⟨hw, hn, hs⟩
    · exact .same ⟨rfl, rfl, fun _ => rfl⟩

theorem step_running {c : Cfg} {s : State} (h : s.runing ≠ stopped) (a : Action) : (step c s a).runing ≠ stopped := by
  cases a with
  | startup workThreads =>
    have hne : started ≠ stopped := by decide
    exact hne
  | consumer i =>
    change (stepConsumer c s i).runing ≠ stopped
    unfold stepConsumer
    split
    all_goals try split
    all_goals exact h
  | _ =>
    rw [(step_same c s rfl).2]
    exact h

/-! ## Held numbers and lost ones -/

/-- Data given for a number fits into a slot. -/
def DataFits (c : Cfg) (s : State) : Action → Prop
  | .publish p data => (s.producers p).sequence.isSome → data.length ≤ c.slotSize
  | _ => True

instance (c : Cfg) (s : State) : (a : Action) → Decidable (DataFits c s a)
  | .startup _ | .next _ _ | .producer _ | .consumer _ => isTrue trivial
  | .publish p data => inferInstanceAs (Decidable ((s.producers p).sequence.isSome → data.length ≤ c.slotSize))

theorem held_init : Held .init := by
  refine ⟨fun n hn hn' => ?_, by decide⟩
  simp only [State.init] at hn hn'
  omega

theorem Held.step {c : Cfg} {s : State} (h : Held s) {a : Action} (hgive : NotGivenUp s a) (hfits : DataFits c s a) :
    Held (step c s a) := by
  refine ⟨fun n hn hn' => ?_, step_running h.running a⟩
  cases step_cases (c := c) hgive with
  | same hsame =>
    rw [hsame.wcursor] at hn
    rw [hsame.wnext] at hn'
    obtain ⟨q, hq⟩ := h.holder n hn hn'
    exact ⟨q, (hsame.sequence q).trans hq⟩
  | take p hfree hmoved =>
    rw [hmoved.wcursor] at hn
    rw [hmoved.wnext] at hn'
    by_cases hnew : n = s.wnext + 1
    · exact ⟨p, by rw [hmoved.own, hnew]⟩
    · obtain ⟨q, hq⟩ := h.holder n hn (by omega)
      have hqp : q ≠ p := by
        rintro rfl
        rw [hfree] at hq
        exact absurd hq (by simp)
      exact ⟨q, (hmoved.others q hqp).trans hq⟩
  | publish p hhas hmoved =>
    rw [hmoved.wcursor] at hn
    rw [hmoved.wnext] at hn'
    obtain ⟨q, hq⟩ := h.holder n (by omega) hn'
    have hqp : q ≠ p := by
      rintro rfl
      have := Option.some.inj (hhas.symm.trans hq)
      omega
    exact ⟨q, (hmoved.others q hqp).trans hq⟩
  | drop p m data ha hhas hwhy hmoved =>
    subst ha
    rcases hwhy with hstop | hlong
    · exact absurd hstop h.running
    · have hle : data.length ≤ c.slotSize := hfits (by rw [hhas]; rfl)
      omega

/-- A number that was taken and that nobody has any more. -/
structure Lost (s : State) (n : Nat) : Prop where
  unpublished : s.wcursor < n
  taken : n ≤ s.wnext
  nobody : ∀ p, (s.producers p).sequence ≠ some n

theorem Lost.step {c : Cfg} {s : State} {n : Nat} (h : Lost s n) {a : Action} (hgive : NotGivenUp s a) :
    Lost (step c s a) n := by
  have hmoved : ∀ {t : State} {p : Nat} {x : Option Nat} {w w' : Nat}, Moved s t p x w w' → x ≠ some n →
      ∀ q, (t.producers q).sequence ≠ some n := by
    intro t p x w w' hm hx q
    by_cases hq : q = p
    · rw [hq, hm.own]
      exact hx
    · rw [hm.others q hq]
      exact h.nobody q
  have hlt := h.unpublished
  have hle := h.taken
  cases step_cases (c := c) hgive with
  | same hsame =>
    exact ⟨hsame.wcursor ▸ hlt, hsame.wnext ▸ hle, fun q => by rw [hsame.sequence q]; exact h.nobody q⟩
  | take p hfree hm =>
    refine ⟨hm.wcursor ▸ hlt, ?_, hmoved hm fun heq => ?_⟩
    · rw [hm.wnext]
      omega
    · have := Option.some.inj heq
      omega
  | publish p hhas hm =>
    have hne : s.wcursor + 1 ≠ n := fun heq => h.nobody p (heq ▸ hhas)
    refine ⟨?_, hm.wnext ▸ hle, hmoved hm (by simp)⟩
    rw [hm.wcursor]
    omega
  | drop p m data ha hhas hwhy hm => exact ⟨hm.wcursor ▸ hlt, hm.wnext ▸ hle, hmoved hm (by simp)⟩

/-- Behind a lost number nothing is published, whatever the producers do. -/
theorem lost_run {c : Cfg} {s : State} {n : Nat} (h : Lost s n) {acts : List Action}
    (hgive : Trace.Always (step c) NotGivenUp s acts) : Lost (Trace.run (step c) s acts) n :=
  Trace.run_inv (step c) (I := fun s => Lost s n) (fun _ _ h hg => h.step hg) h hgive

/-- `ngx_disruptor_publish` with data longer than a slot loses the number. -/
theorem lost_of_long {c : Cfg} {s : State} (h : Inv c s.toCore) (hrun : s.runing ≠ stopped) {p n : Nat} {data : Bytes}
    (hp : s.producers p = .has n) (hlong : c.slotSize < data.length) : Lost (step c s (.publish p data)) n := by
  have hseq : (s.producers p).sequence = some n := by
    rw [hp]
    rfl
  obtain ⟨hlt, hle⟩ := (h.producer p).sequence hseq
  have hstep : step c s (.publish p data) = s.setProducer p .out := by
    simp [step, hp, hrun, hlong]
  rw [hstep]
  refine ⟨hlt, hle, fun q => ?_⟩
  by_cases hq : q = p
  · subst hq
    simp [State.setProducer, Producer.sequence]
  · rw [State.setProducer]
    simp only [Function.update_of_ne hq]
    exact fun heq => hq (h.sequences q p n heq hseq)

/-! ## Every number can be published -/

/-- The steps of a run: nobody gives up on a full ring, and all data fits. -/
def Fair (c : Cfg) (s : State) (a : Action) : Prop := NotGivenUp s a ∧ DataFits c s a

instance (c : Cfg) (s : State) (a : Action) : Decidable (Fair c s a) := inferInstanceAs (Decidable (_ ∧ _))

/-- The way to `wcursor` for one that has a number. -/
def finish (p : Nat) : Producer → List Action
  | .has _ => [.publish p [], .producer p, .producer p]
  | .copy _ data done => List.replicate (data.length - done + 2) (.producer p)
  | .publish _ _ => [.producer p]
  | _ => []

section Finish

variable {c : Cfg} {s : State} {p : Nat}

theorem finish_publish {data : Bytes} (hp : s.producers p = .publish (s.wcursor + 1) data) :
    Trace.Always (step c) (Fair c) s [.producer p] ∧
      (Trace.run (step c) s [.producer p]).wcursor = s.wcursor + 1 := by
  refine ⟨⟨⟨fun hblocked => ?_, trivial⟩, trivial⟩, ?_⟩
  · rw [hp] at hblocked
    exact absurd hblocked (by simp [Producer.isBlocked])
  · simp [step, stepProducer, hp]

theorem finish_copy (k : Nat) {data : Bytes} {done : Nat} (hp : s.producers p = .copy (s.wcursor + 1) data done)
    (hk : data.length - done = k) :
    Trace.Always (step c) (Fair c) s (List.replicate (k + 2) (.producer p)) ∧
      (Trace.run (step c) s (List.replicate (k + 2) (.producer p))).wcursor = s.wcursor + 1 := by
  have hfair : Fair c s (.producer p) := ⟨fun hblocked => by simp [hp, Producer.isBlocked] at hblocked, trivial⟩
  induction k generalizing s done with
  | zero =>
    have hstep : step c s (.producer p) = s.setProducer p (.publish (s.wcursor + 1) data) := by
      simp only [step, stepProducer, hp]
      rw [if_neg (by omega)]
    have hpublish : (s.setProducer p (.publish (s.wcursor + 1) data)).producers p = .publish (s.wcursor + 1) data := by
      simp [State.setProducer]
    obtain ⟨hall, hrun⟩ := finish_publish (c := c) hpublish
    refine ⟨⟨hfair, ?_⟩, ?_⟩
    · rw [hstep]
      exact hall
    · rw [List.replicate_succ, Trace.run_cons, hstep]
      exact hrun
  | succ k ih =>
    set t := step c s (.producer p) with ht
    have hstep : t.producers p = .copy (s.wcursor + 1) data (done + 1) ∧ t.wcursor = s.wcursor := by
      rw [ht]
      simp only [step, stepProducer, hp]
      rw [if_pos (by omega)]
      simp [State.setProducer]
    obtain ⟨htp, htw⟩ := hstep
    rw [← htw] at htp
    obtain ⟨hall, hrun⟩ := ih htp (by omega) ⟨fun hblocked => by simp [htp, Producer.isBlocked] at hblocked, trivial⟩
    rw [htw] at hrun
    exact ⟨⟨hfair, hall⟩, hrun⟩

/-- The producer whose turn it is reaches its compare-and-set, and that succeeds. -/
theorem finish_turn (hrun : s.runing ≠ stopped) (hp : (s.producers p).sequence = some (s.wcursor + 1)) :
    Trace.Always (step c) (Fair c) s (finish p (s.producers p)) ∧
      (Trace.run (step c) s (finish p (s.producers p))).wcursor = s.wcursor + 1 := by
  cases hx : s.producers p with
  | has n =>
    rw [hx] at hp
    obtain rfl := Option.some.inj hp
    set t := step c s (.publish p []) with ht
    have hstep : t.producers p = .copy (s.wcursor + 1) [] 0 ∧ t.wcursor = s.wcursor := by
      rw [ht]
      simp [step, hx, hrun, State.setProducer]
    obtain ⟨htp, htw⟩ := hstep
    rw [← htw] at htp
    obtain ⟨hall, hrun'⟩ := finish_copy (c := c) 0 htp rfl
    rw [htw] at hrun'
    exact ⟨⟨⟨trivial, fun _ => Nat.zero_le _⟩, hall⟩, hrun'⟩
  | copy n data done =>
    rw [hx] at hp
    obtain rfl := Option.some.inj hp
    exact finish_copy _ hx rfl
  | publish n data =>
    rw [hx] at hp
    obtain rfl := Option.some.inj hp
    exact finish_publish hx
  | _ =>
    rw [hx] at hp
    exact absurd hp (by simp [Producer.sequence])

end Finish

theorem held_run {c : Cfg} {s : State} (h : Held s) {acts : List Action}
    (hacts : Trace.Always (step c) (Fair c) s acts) : Held (Trace.run (step c) s acts) :=
  Trace.run_inv (step c) (fun _ _ h hf => h.step hf.1 hf.2) h hacts

/-- Up to any number that was taken, the producers can go on to publish. -/
theorem publish_upTo {c : Cfg} (hbatch : 1 ≤ c.batchSize) {s : State} (hinv : Inv c s.toCore) (h : Held s) {n : Nat}
    (hn : n ≤ s.wnext) :
    ∃ more, Trace.Always (step c) (Fair c) s more ∧ n ≤ (Trace.run (step c) s more).wcursor := by
  obtain ⟨k, hk⟩ : ∃ k, n - s.wcursor = k := ⟨_, rfl⟩
  induction k generalizing s with
  | zero => exact ⟨[], trivial, by simp only [Trace.run_nil]; omega⟩
  | succ k ih =>
    obtain ⟨p, hp⟩ := h.holder (s.wcursor + 1) (by omega) (by omega)
    obtain ⟨hall, hw⟩ := finish_turn (c := c) h.running hp
    set acts := finish p (s.producers p)
    have hgive : Trace.Always (step c) NotGivenUp s acts := hall.imp (step c) fun _ _ hf => hf.1
    have hinv' : Inv c (Trace.run (step c) s acts).toCore :=
      Trace.run_inv (step c) (I := fun s => Inv c s.toCore) (fun _ _ h hg => h.step hbatch hg) hinv hgive
    have hwnext := (run_le hbatch hinv hgive).wnext
    obtain ⟨more, hmore, hle⟩ := ih hinv' (held_run h hall) (by omega) (by omega)
    refine ⟨acts ++ more, (Trace.always_append (step c)).2 ⟨hall, hmore⟩, ?_⟩
    rw [Trace.run_append]
    exact hle

/-- In a run in which no producer gives up on a full ring and all data fits into a slot, the two
cursors meet whenever no producer has a number, and all numbers that are taken can be published. -/
theorem publish_never_wedges {slots batchSize : Int} {slotSize : Nat} {c : Cfg}
    (hc : ngxDisruptorCreate slots slotSize batchSize = some c) {acts : List Action}
    (hacts : Trace.Always (step c) (Fair c) .init acts) :
    let s := Trace.run (step c) .init acts
    (Idle s → s.wcursor = s.wnext) ∧
      ∀ n ≤ s.wnext, ∃ more, Trace.Always (step c) (Fair c) s more ∧ n ≤ (Trace.run (step c) s more).wcursor := by
  obtain ⟨-, hbatch⟩ := create_eq_some hc
  have hheld := held_run (c := c) held_init hacts
  have hinv := inv_run hbatch (hacts.imp (step c) fun _ _ hf => hf.1)
  exact ⟨hheld.idle hinv.wcursor_le, fun n hn => publish_upTo hbatch hinv hheld hn⟩

theorem publish_never_wedges_oneItem : (Trace.run (step ⟨2, 4, 1⟩) .init oneItem).wcursor =
    (Trace.run (step ⟨2, 4, 1⟩) .init oneItem).wnext := by
  have hcreate : ngxDisruptorCreate 2 4 1 = some ⟨2, 4, 1⟩ := by decide
  have hacts : Trace.Always (step ⟨2, 4, 1⟩) (Fair ⟨2, 4, 1⟩) .init oneItem := by decide
  have hidle : Idle (Trace.run (step ⟨2, 4, 1⟩) .init oneItem) := by
    intro p
    cases p with
    | zero => rfl
    | succ p => rfl
  exact (publish_never_wedges hcreate hacts).1 hidle

/-- Five bytes for a slot of four. -/
def tooLong : List Action :=
  [.startup 1, .next 0 0, .producer 0, .producer 0, .producer 0, .publish 0 [1, 2, 3, 4, 5]]

/-- The producer is back with `NGX_ERROR`, and `wcursor` stays at 0. -/
theorem long_publish_wedges : ngxDisruptorCreate 2 4 1 = some ⟨2, 4, 1⟩ ∧
    Idle (Trace.run (step ⟨2, 4, 1⟩) .init tooLong) ∧ (Trace.run (step ⟨2, 4, 1⟩) .init tooLong).wnext = 1 ∧
    ∀ more, Trace.Always (step ⟨2, 4, 1⟩) NotGivenUp (Trace.run (step ⟨2, 4, 1⟩) .init tooLong) more →
      (Trace.run (step ⟨2, 4, 1⟩) .init (tooLong ++ more)).wcursor = 0 := by
  have hidle : Idle (Trace.run (step ⟨2, 4, 1⟩) .init tooLong) := by
    intro p
    cases p with
    | zero => rfl
    | succ p => rfl
  have hlost : Lost (Trace.run (step ⟨2, 4, 1⟩) .init tooLong) 1 :=
    ⟨by decide, by decide, fun p => by rw [hidle p]; simp⟩
  refine ⟨by decide, hidle, by decide, fun more hmore => ?_⟩
  rw [Trace.run_append]
  have := (lost_run hlost hmore).unpublished
  omega

end NgxPlus.Disruptor
