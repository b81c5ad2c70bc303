import Mathlib.Data.Int.ConditionallyCompleteOrder
import Mathlib.Order.WithBot
import NgxPlus.Mqtt.PassEnd
import NgxPlus.Mqtt.SubscribeThread

/-!
# No wake-up of the subscription thread is lost

Any run of `SubscribeThread.lean`: notifications are handled, the cache entry goes, the client
subscribes, acknowledges and pings, at any point between the steps of the two passes.

`no_lost_wakeup`: when the thread waits for a post that was not made, and no `SUBSCRIBE` is under
way, the offset that was stored for the client has reached the last notification of every topic that
its subscriptions cover, unless the notification is not handled yet, or a message with QoS waits for
its acknowledgement or has lost its entry. What was written up to a stored offset is said in
`QosDelivery.lean`.

What carries it is `Awake`: a topic that is behind is ahead in a pass, or is posted for. A post is
enough on its own where there is no cache entry, and where the pass under way deletes it; a cache
entry that does not have the topic takes one post away, so then there are two (`Counted`).

A wildcard covers the topics of its own dictionary only: a `G/E/` topic that `#` matches is notified,
and read while it is in the cache, but a pass over the table looks in the other dictionary.
-/

namespace NgxPlus.Mqtt.Wakeup

open ByteMem Trace
open NgxPlus.Diversion (Behind LuaError)

section

variable (W : ServerLibs) (me : ClientId) (after : Behind)

/-! ## The topics of a session -/

/-- A pass over the subscription looks the topic up. -/
def Sub.Covers (sub : Sub) (t : Bytes) : Prop :=
  if ngxMqttTopicIsExpression sub.filter then
    subscribeStore sub.filter = subscribeStore t ∧ wildcardMatch after t sub.filter = true
  else sub.filter = t

/-- A topic that is the client's; the private topic of a client is handed to no other. -/
structure Covered (s : State) (t : Bytes) : Prop where
  plain : ngxMqttTopicIsExpression t = false
  mine : isPrivate t = true → t = me.1
  sub : ∃ sub ∈ s.subs, sub.Covers after t

/-- The topics of the filter's dictionary that it matches, as `Listing.lean` has them. -/
def Lists (s : State) (sub : Sub) (listing : List (Bytes × Int)) : Prop :=
  ∀ t o, (t, o) ∈ listing ↔
    s.server.offsets (subscribeStore sub.filter) t = some o ∧ wildcardMatch after t sub.filter = true

/-- A wildcard filter has set `iswildcard`; those that `auth` stores do not (`mqtt.lua:914-921,969`). -/
def Flagged (s : State) : Prop := ∀ sub ∈ s.subs, ngxMqttTopicIsExpression sub.filter = true → s.iswildcard = true

/-! ## The runs -/

/-- What is asked of a step. -/
def Ok (s : State) : Step → Prop
  | .publish topic data index =>
    ((currentOffset (s.topics topic) + 1 : Nat) : ℚ) ≤ intMaxRing2 ∧
      StoredAt topic (currentOffset (s.topics topic) + 1) (zaddPayload data index (currentOffset (s.topics topic) + 1))
  | .notify topic offset => offset ≤ currentOffset (s.topics topic)
  | .wake order => ∀ seen, s.thread = .waiting seen → order.Perm (s.chosen me seen)
  | .timeout order => order.Perm s.subs
  | .read who listing => ∀ sub rest more, s.pass who = some ⟨sub :: rest, [], more⟩ →
    ngxMqttTopicIsExpression sub.filter = true → Lists after s sub listing
  | .body who clock => ∀ rest k todo more, s.pass who = some ⟨rest, k :: todo, more⟩ →
    ∀ old, s.resume me k clock.resend = .ok old → (old : ℚ) ≤ intMaxRing2
  | .puback p => p.clientId = me
  | _ => True

/-- A session that has just begun: its thread waits, and no cache entry is left of an earlier one. -/
structure Start (s : State) : Prop where
  flagged : Flagged s
  waiting : ∃ seen, s.thread = .waiting seen
  conn : s.conn = none
  ismore : s.ismore = false
  cached : s.cached me = none
  topic : ∀ t, TopicOk t (s.topics t)
  offsets : ∀ z t o, s.server.offsets z t = some o → z = subscribeStore t ∧ 0 ≤ o ∧ o ≤ currentOffset (s.topics t)
  reached : ∀ t (p : Int), s.reached t = (p : WithBot Int) ↔ s.server.consumer me t = some p
  /-- What was recovered of an earlier session is not behind. -/
  recovered : ∀ t o, Covered me after s t → s.newest t = some o → o ≤ s.reached t ∨ s.underway t = true

/-! ## The invariant -/

/-- A message of the topic was sent, and the thread waits for its acknowledgement. -/
def Held (s : State) (t : Bytes) : Prop := (s.entry me t).isSome = true ∨ s.orphaned t = true

/-- The pass will see that `o` was notified for the topic, or posts when it ends. -/
def Works (t : Bytes) (o : Int) (p : TopicPass) : Prop :=
  p.more = true ∨ (∃ sub ∈ p.rest, sub.Covers after t) ∨ ∃ k ∈ p.todo, k.topic = t ∧ o ≤ k.newoffset

/-- The thread is in a pass after which the cache entry is deleted. -/
def State.clears (s : State) : Bool :=
  match s.thread with
  | .passing cached _ => cached
  | _ => false

/-- One post is enough where the next pass is over the whole table, or over a cache with the topic. -/
def Posted (s : State) (t : Bytes) : Prop :=
  2 ≤ s.count ∨ 1 ≤ s.count ∧ (s.clears = true ∨ ∀ topics ∈ s.cached me, (AssocList.get topics t).isSome = true)

inductive Awake (s : State) (t : Bytes) (o : Int) : Prop
  | works (who : Runner) (p : TopicPass) (hp : s.pass who = some p) (h : Works after t o p)
  | posted (h : Posted me s t)
  | ended (h : s.thread = .ended)

/-- What is to be done for the topic is done, or will be seen. -/
inductive Served (s : State) (t : Bytes) (o : Int) : Prop
  | reached (h : (o : WithBot Int) ≤ s.reached t)
  | underway (h : s.underway t = true)
  | held (h : Held me s t)
  | awake (h : Awake me after s t o)

/-- Each reason for a pass has its post: the cache entry, and `ismore`. -/
def Counted (s : State) : Prop :=
  match s.thread with
  | .waiting _ => (s.cached me).isSome.toNat + s.ismore.toNat ≤ s.count
  | .passing false _ => (s.cached me).isSome.toNat ≤ s.count
  | _ => True

structure Inv (s : State) : Prop where
  flagged : Flagged s
  topic : ∀ t, TopicOk t (s.topics t)
  offsets : ∀ z t o, s.server.offsets z t = some o → z = subscribeStore t ∧ 0 ≤ o ∧ o ≤ currentOffset (s.topics t)
  tasks : ∀ who p, s.pass who = some p → ∀ k ∈ p.todo, 0 ≤ k.newoffset ∧ k.newoffset ≤ currentOffset (s.topics k.topic)
  counted : Counted me s
  served : ∀ t o, Covered me after s t → s.newest t = some o → Served me after s t o

end

/-! ## Passes and posts -/

section

variable {W : ServerLibs} {me : ClientId} {after : Behind} {s s' : State} {t : Bytes} {o : Int}

theorem Served.imp (h : Served me after s t o) (hreached : s.reached t ≤ s'.reached t)
    (hunderway : s.underway t = true → s'.underway t = true) (hheld : Held me s t → Held me s' t)
    (hawake : Awake me after s t o → Served me after s' t o) : Served me after s' t o := by
  cases h with
  | reached h => exact .reached (h.trans hreached)
  | underway h => exact .underway (hunderway h)
  | held h => exact .held (hheld h)
  | awake h => exact hawake h

theorem State.pass_congr (hthread : s'.thread = s.thread) (hconn : s'.conn = s.conn) (who : Runner) :
    s'.pass who = s.pass who := by
  cases who with
  | thread => exact congrArg Thread.pass hthread
  | conn => exact hconn

/-- The passes and the posts are as they were. -/
structure SamePasses (s s' : State) : Prop where
  thread : s'.thread = s.thread
  conn : s'.conn = s.conn
  count : s'.count = s.count
  cache : s'.cache = s.cache
  ismore : s'.ismore = s.ismore

theorem SamePasses.pass (h : SamePasses s s') (who : Runner) : s'.pass who = s.pass who :=
  State.pass_congr h.thread h.conn who

theorem SamePasses.cached (h : SamePasses s s') : s'.cached me = s.cached me := by rw [State.cached, h.cache, State.cached]

theorem SamePasses.clears (h : SamePasses s s') : s'.clears = s.clears := by rw [State.clears, h.thread, State.clears]

theorem SamePasses.counted (h : SamePasses s s') (hc : Counted me s) : Counted me s' := by
  rw [Counted] at hc ⊢
  rwa [h.thread, h.cached, h.ismore, h.count]

theorem SamePasses.awake (h : SamePasses s s') (ha : Awake me after s t o) : Awake me after s' t o := by
  cases ha with
  | works who p hp hw => exact .works who p ((h.pass who).trans hp) hw
  | posted hp =>
    refine .posted ?_
    rw [Posted] at hp ⊢
    rwa [h.count, h.clears, h.cached]
  | ended he => exact .ended (h.thread.trans he)

/-- With a post there are enough, whatever the topic. -/
theorem posted_post (hc : Counted me s) (hthread : s.thread ≠ .ended) (t : Bytes) : Posted me s.post t := by
  have hcount : s.post.count = s.count + 1 := rfl
  have hcached : s.post.cached me = s.cached me := rfl
  have hclears : s.post.clears = s.clears := rfl
  rw [Posted, hcount, hcached, hclears]
  by_cases hclear : s.clears = true
  · exact Or.inr ⟨Nat.le_add_left 1 _, Or.inl hclear⟩
  cases hc' : s.cached me with
  | none => exact Or.inr ⟨Nat.le_add_left 1 _, Or.inr fun _ hin => absurd hin (Option.not_mem_none _)⟩
  | some topics =>
    have hone : 1 ≤ s.count := by
      rw [Counted, hc'] at hc
      rw [State.clears] at hclear
      cases hth : s.thread with
      | waiting seen =>
        rw [hth] at hc
        simp only [Option.isSome_some, Bool.toNat_true] at hc
        omega
      | passing cached p =>
        rw [hth] at hc hclear
        cases cached with
        | true => exact absurd rfl hclear
        | false => simpa using hc
      | ended => exact absurd hth hthread
    exact Or.inl (by omega)

theorem Awake.post (hc : Counted me s) : Awake me after s.post t o := by
  by_cases hthread : s.thread = .ended
  · exact .ended hthread
  · exact .posted (posted_post hc hthread t)

theorem Posted.leave (h : Posted me s t) (who : Runner) : Posted me (s.leave me who) t := by
  cases who with
  | conn => exact h
  | thread =>
    rw [State.leave]
    split
    · next cached p hth =>
      rcases h with h | ⟨hone, hright⟩
      · exact Or.inl h
      refine Or.inr ⟨hone, Or.inr ?_⟩
      cases cached with
      | true =>
        have hdeleted : AssocList.get (AssocList.delete s.cache me.1) me.1 = none := AssocList.get_delete_self _ _
        rw [State.cached, if_pos rfl, hdeleted]
        exact fun _ hin => absurd hin (Option.not_mem_none _)
      | false =>
        rw [State.clears, hth] at hright
        exact hright.resolve_left Bool.false_ne_true
    · exact h

/-! ## Messages and notifications -/

theorem Covered.of_subs (hc : Covered me after s' t) (h : s'.subs = s.subs) : Covered me after s t :=
  ⟨hc.plain, hc.mine, h ▸ hc.sub⟩

theorem Inv.publish (h : Inv me after s) {topic data : Bytes} {index : Nat}
    (hok : Ok me after s (.publish topic data index)) :
    Inv me after (step W me after s (.publish topic data index)) := by
  obtain ⟨hring, hstored⟩ := hok
  obtain ⟨htopic, hcurrent, -⟩ := (h.topic topic).publish hring hstored
  have hle : ∀ t, currentOffset (s.topics t) ≤ currentOffset ((step W me after s (.publish topic data index)).topics t) := by
    intro t
    simp only [step, Function.update_apply]
    split
    · next ht =>
      subst ht
      omega
    · exact le_rfl
  have hsame : SamePasses s (step W me after s (.publish topic data index)) := ⟨rfl, rfl, rfl, rfl, rfl⟩
  refine ⟨h.flagged, fun t => ?_, fun z t o ho => ?_, fun who p hp k hk => ?_, hsame.counted h.counted, fun t o hc ho => ?_⟩
  · simp only [step, Function.update_apply]
    split
    · next ht =>
      subst ht
      exact htopic
    · exact h.topic t
  · obtain ⟨hz, hnonneg, hold⟩ := h.offsets z t o ho
    have := hle t
    exact ⟨hz, hnonneg, by omega⟩
  · obtain ⟨hnonneg, hold⟩ := h.tasks who p ((hsame.pass who).symm.trans hp) k hk
    have := hle k.topic
    exact ⟨hnonneg, by omega⟩
  · exact (h.served t o (hc.of_subs rfl) ho).imp le_rfl id id fun ha => .awake (hsame.awake ha)

theorem newest_notify (topic : Bytes) (offset : Nat) (t : Bytes) :
    (s.notify topic offset).newest t = if t = topic then some (keptOffset (s.newest topic) offset) else s.newest t := by
  simp only [State.newest, State.notify]
  by_cases ht : t = topic
  · subst ht
    simp
  rw [if_neg ht, Function.update_apply]
  split
  · next hz => rw [Function.update_of_ne ht, ← hz]
  · rfl

theorem keptOffset_mem {old : Option Int} {offset n : Nat} (hold : ∀ o, old = some o → 0 ≤ o ∧ o ≤ n) (h : offset ≤ n) :
    0 ≤ keptOffset old offset ∧ keptOffset old offset ≤ n := by
  have hnew : 0 ≤ (offset : Int) ∧ (offset : Int) ≤ n := by omega
  cases old with
  | none => exact hnew
  | some o =>
    rw [keptOffset]
    split
    · exact hnew
    · exact hold o rfl

theorem Inv.notify (h : Inv me after s) {topic : Bytes} {offset : Nat}
    (hok : Ok me after s (.notify topic offset)) : Inv me after (s.notify topic offset) := by
  have hsame : SamePasses s (s.notify topic offset) := ⟨rfl, rfl, rfl, rfl, rfl⟩
  refine ⟨h.flagged, h.topic, fun z t o ho => ?_, fun who p hp => h.tasks who p ((hsame.pass who).symm.trans hp),
    hsame.counted h.counted, fun t o hc ho => ?_⟩
  · simp only [State.notify, Function.update_apply] at ho
    split at ho
    · next hz =>
      simp only [Function.update_apply] at ho
      split at ho
      · next ht =>
        subst ht
        obtain rfl := Option.some.inj ho
        exact ⟨hz, keptOffset_mem (fun old hold => (h.offsets _ _ _ hold).2) hok⟩
      · exact h.offsets z t o (hz ▸ ho)
    · exact h.offsets z t o ho
  · rw [newest_notify] at ho
    split at ho
    · next ht =>
      subst ht
      exact .underway (Function.update_self ..)
    · next ht =>
      refine (h.served t o (hc.of_subs rfl) ho).imp le_rfl (fun hu => ?_) id fun ha => .awake (hsame.awake ha)
      exact (Function.update_of_ne ht ..).trans hu

/-- A covered topic is handed to the session. -/
theorem Covered.takes (h : Covered me after s t) (hflagged : Flagged s) : s.takes me after t = true := by
  rw [State.takes]
  by_cases hp : isPrivate t = true
  · rw [if_pos hp]
    exact beq_iff_eq.2 (h.mine hp)
  rw [if_neg hp, notifies]
  simp only [State.obj, Bool.or_eq_true, Bool.and_eq_true]
  obtain ⟨sub, hsub, hcovers⟩ := h.sub
  rw [Sub.Covers] at hcovers
  split at hcovers
  · next hwild =>
    refine Or.inr ⟨hflagged sub hsub hwild, List.any_eq_true.2 ⟨sub.filter, ?_, hcovers.2⟩⟩
    exact List.mem_map_of_mem hsub
  · refine Or.inl (List.contains_iff_mem.2 ?_)
    rw [← hcovers]
    exact List.mem_map_of_mem hsub

theorem Inv.handle (h : Inv me after s) (topic : Bytes) (offset : Nat) :
    Inv me after (s.handle me after topic offset) := by
  rw [State.handle]
  split
  · have hcached : AssocList.get (storeSemaphoreCache s.cache me.1 topic offset) me.1 =
        some (AssocList.set ((s.cached me).getD []) topic offset) := AssocList.get_set_self _ _ _
    refine ⟨h.flagged, h.topic, h.offsets, fun who p hp => h.tasks who p ((State.pass_congr rfl rfl who).trans hp), ?_,
      fun t o hc ho => ?_⟩
    · have hcount := h.counted
      rw [Counted] at hcount ⊢
      simp only [State.cached, hcached, Option.isSome_some, Bool.toNat_true]
      cases hth : s.thread with
      | waiting seen =>
        rw [hth] at hcount
        simp only at hcount ⊢
        omega
      | passing cached p =>
        cases cached with
        | true => trivial
        | false => exact Nat.le_add_left 1 _
      | ended => trivial
    · by_cases ht : t = topic
      · -- the cache has the topic now
        refine .awake (.posted (Or.inr ⟨Nat.le_add_left 1 _, Or.inr ?_⟩))
        simp only [State.cached, hcached, ht, Option.mem_def, Option.some.injEq, forall_eq', AssocList.get_set_self,
          Option.isSome_some]
      refine (h.served t o (hc.of_subs rfl) ho).imp le_rfl (fun hu => (Function.update_of_ne ht ..).trans hu) id fun ha => ?_
      refine .awake ?_
      cases ha with
      | works who p hp hw => exact .works who p ((State.pass_congr rfl rfl who).trans hp) hw
      | posted hp =>
        refine .posted (Or.inl ?_)
        have hone : 1 ≤ s.count := by
          rcases hp with hp | hp
          · omega
          · exact hp.1
        exact Nat.succ_le_succ hone
      | ended he => exact .ended he
  · next htakes =>
    have hsame : SamePasses s { s with underway := Function.update s.underway topic false } := ⟨rfl, rfl, rfl, rfl, rfl⟩
    refine ⟨h.flagged, h.topic, h.offsets, fun who p hp => h.tasks who p ((hsame.pass who).symm.trans hp), hsame.counted h.counted,
      fun t o hc ho => ?_⟩
    have ht : t ≠ topic := by
      rintro rfl
      exact htakes ((hc.of_subs rfl).takes h.flagged)
    exact (h.served t o (hc.of_subs rfl) ho).imp le_rfl (fun hu => (Function.update_of_ne ht ..).trans hu) id
      fun ha => .awake (hsame.awake ha)

theorem Inv.forget (h : Inv me after s) : Inv me after { s with cache := AssocList.delete s.cache me.1 } := by
  have hcached : AssocList.get (AssocList.delete s.cache me.1) me.1 = none := AssocList.get_delete_self _ _
  refine ⟨h.flagged, h.topic, h.offsets, fun who p hp => h.tasks who p ((State.pass_congr rfl rfl who).trans hp), ?_,
    fun t o hc ho => ?_⟩
  · have hcount := h.counted
    rw [Counted] at hcount ⊢
    simp only [State.cached, hcached, Option.isSome_none, Bool.toNat_false]
    cases hth : s.thread with
    | waiting seen =>
      rw [hth] at hcount
      simp only at hcount ⊢
      omega
    | passing cached p =>
      cases cached with
      | true => trivial
      | false => exact Nat.zero_le _
    | ended => trivial
  · refine (h.served t o (hc.of_subs rfl) ho).imp le_rfl id id fun ha => .awake ?_
    cases ha with
    | works who p hp hw => exact .works who p ((State.pass_congr rfl rfl who).trans hp) hw
    | posted hp =>
      refine .posted (hp.imp_right fun hone => ⟨hone.1, Or.inr ?_⟩)
      simp only [State.cached, hcached]
      exact fun _ hin => absurd hin (Option.not_mem_none _)
    | ended he => exact .ended he

theorem Held.withServer (h : Held me s t) (server : Server) {acked : Option Bytes} (hne : acked ≠ some t) :
    Held me (s.withServer me server acked) t := by
  rw [Held] at h ⊢
  simp only [State.withServer, Bool.or_eq_true, Bool.and_eq_true, bne_iff_ne]
  rcases h with hentry | horphaned
  · cases hgone : server.dicts.getOutstanding me.1 t with
    | none => exact Or.inr (Or.inr ⟨⟨hentry, rfl⟩, hne⟩)
    | some v =>
      refine Or.inl ?_
      rw [State.entry, hgone]
      rfl
  · exact Or.inr (Or.inl horphaned)

theorem Inv.expire (h : Inv me after s) (key : Bytes) : Inv me after (step W me after s (.expire key)) := by
  have hsame : SamePasses s (step W me after s (.expire key)) := ⟨rfl, rfl, rfl, rfl, rfl⟩
  refine ⟨h.flagged, h.topic, h.offsets, fun who p hp => h.tasks who p ((hsame.pass who).symm.trans hp), hsame.counted h.counted,
    fun t o hc ho => ?_⟩
  exact (h.served t o (hc.of_subs rfl) ho).imp le_rfl id (fun hheld => hheld.withServer _ (Option.some_ne_none t).symm)
    fun ha => .awake (hsame.awake ha)

/-! ## The thread -/

/-- A pass over the whole table looks every covered topic up. -/
theorem Covered.works (hc : Covered me after s t) {order : List Sub} (horder : order.Perm s.subs) (o : Int) :
    Works after t o ⟨order, [], false⟩ := by
  obtain ⟨sub, hsub, hcovers⟩ := hc.sub
  exact Or.inr (Or.inl ⟨sub, horder.mem_iff.2 hsub, hcovers⟩)

/-- A pass over the cached topics looks them up. -/
theorem Covered.works_cached (hc : Covered me after s t) {topics : AssocList Bytes Nat}
    (ht : (AssocList.get topics t).isSome = true) {order : List Sub}
    (horder : order.Perm (topics.map fun e => s.subFor e.1)) (o : Int) : Works after t o ⟨order, [], false⟩ := by
  obtain ⟨offset, hoffset⟩ := Option.isSome_iff_exists.1 ht
  have hsub : s.subFor t ∈ order :=
    horder.mem_iff.2 (List.mem_map_of_mem (f := fun e : Bytes × Nat => s.subFor e.1) (AssocList.mem_of_get hoffset))
  have hfilter : (s.subFor t).filter = t := by
    rw [State.subFor]
    cases hfind : s.subs.find? fun sub => sub.filter == t with
    | none => rfl
    | some sub => simpa using List.find?_some hfind
  refine Or.inr (Or.inl ⟨_, hsub, ?_⟩)
  rw [Sub.Covers, hfilter, if_neg (by rw [hc.plain]; exact Bool.false_ne_true)]

theorem Inv.wake (h : Inv me after s) {order : List Sub} (hok : Ok me after s (.wake order)) :
    Inv me after (s.wake me order) := by
  rw [State.wake]
  split
  · next seen hth =>
    split
    · exact h
    next hcount =>
    have horder := hok seen hth
    have hcounted := h.counted
    rw [Counted, hth] at hcounted
    simp only at hcounted
    refine ⟨h.flagged, h.topic, h.offsets, fun who p hp => ?_, ?_, fun t o hc ho => ?_⟩
    · cases who with
      | thread =>
        obtain rfl := Option.some.inj hp
        exact List.forall_mem_nil _
      | conn => exact h.tasks .conn p hp
    · rw [Counted]
      simp only
      cases hby : s.byCache me seen with
      | true => trivial
      | false =>
        simp only [State.byCache, Bool.and_eq_false_iff, Bool.not_eq_false', Bool.and_eq_true] at hby
        simp only [State.cached] at hby hcounted ⊢
        rcases hby with ⟨-, hmore⟩ | hnone
        · rw [hmore, Bool.toNat_true] at hcounted
          omega
        · rw [hnone]
          exact Nat.zero_le _
    · have hc' : Covered me after s t := hc.of_subs rfl
      cases hby : s.byCache me seen with
      | false =>
        refine .awake (.works .thread _ rfl (hc'.works ?_ o))
        rwa [State.chosen, if_neg (by rw [hby]; exact Bool.false_ne_true)] at horder
      | true =>
        refine (h.served t o hc' ho).imp le_rfl id id fun ha => .awake ?_
        obtain ⟨topics, htopics⟩ : ∃ topics, s.cached me = some topics := by
          rw [State.byCache, Bool.and_eq_true] at hby
          exact Option.isSome_iff_exists.1 hby.2
        cases ha with
        | works who p hp hw =>
          cases who with
          | thread =>
            rw [State.pass, hth] at hp
            cases hp
          | conn => exact .works .conn p hp hw
        | posted hp =>
          rcases hp with htwo | ⟨-, hclears | hcached⟩
          · -- another post is left, and the pass deletes the cache entry
            refine .posted (Or.inr ⟨?_, Or.inl rfl⟩)
            show 1 ≤ s.count - 1
            omega
          · rw [State.clears, hth] at hclears
            cases hclears
          · refine .works .thread _ rfl (hc'.works_cached (hcached topics htopics) ?_ o)
            rwa [State.chosen, if_pos hby, htopics, Option.getD_some] at horder
        | ended he =>
          rw [hth] at he
          cases he
  · exact h

theorem Inv.timeout (h : Inv me after s) {order : List Sub} (hok : Ok me after s (.timeout order)) :
    Inv me after (s.timeout order) := by
  rw [State.timeout]
  split
  · next seen hth =>
    have hcounted := h.counted
    rw [Counted, hth] at hcounted
    simp only at hcounted
    split
    · refine ⟨h.flagged, h.topic, h.offsets, fun who p hp => ?_, ?_, fun t o hc ho => ?_⟩
      · cases who with
        | thread =>
          obtain rfl := Option.some.inj hp
          exact List.forall_mem_nil _
        | conn => exact h.tasks .conn p hp
      · exact (Nat.le_add_right _ _).trans hcounted
      · exact .awake (.works .thread _ rfl ((hc.of_subs rfl).works hok o))
    · refine ⟨h.flagged, h.topic, h.offsets, fun who p hp => ?_, hcounted, fun t o hc ho => ?_⟩
      · cases who with
        | thread => cases hp
        | conn => exact h.tasks .conn p hp
      · refine (h.served t o (hc.of_subs rfl) ho).imp le_rfl id id fun ha => .awake ?_
        cases ha with
        | works who p hp hw =>
          cases who with
          | thread =>
            rw [State.pass, hth] at hp
            cases hp
          | conn => exact .works .conn p hp hw
        | posted hp =>
          refine .posted (hp.imp_right fun hone => ⟨hone.1, Or.inr (hone.2.resolve_left fun hclears => ?_)⟩)
          rw [State.clears, hth] at hclears
          cases hclears
        | ended he =>
          rw [hth] at he
          cases he
  · exact h

/-! ## The steps of a pass -/

theorem State.pass_put {who : Runner} {p₀ : TopicPass} (hp : s.pass who = some p₀) (p : TopicPass) :
    (s.put p who).pass who = some p := by
  cases who with
  | conn => rfl
  | thread =>
    rw [State.pass] at hp
    rw [State.put, State.pass]
    cases hth : s.thread with
    | waiting seen =>
      rw [hth] at hp
      cases hp
    | passing cached q => rfl
    | ended =>
      rw [hth] at hp
      cases hp

theorem State.pass_put_of_ne {who who' : Runner} (hne : who' ≠ who) (p : TopicPass) :
    (s.put p who).pass who' = s.pass who' := by
  cases who with
  | conn =>
    cases who' with
    | conn => exact absurd rfl hne
    | thread => rfl
  | thread =>
    cases who' with
    | conn => rfl
    | thread => exact absurd rfl hne

/-- Where a pass is does not matter to the posts. -/
theorem State.counted_put (who : Runner) (p : TopicPass) (h : Counted me s) : Counted me (s.put p who) := by
  cases who with
  | conn => exact h
  | thread =>
    rw [Counted] at h
    rw [State.put, Counted]
    cases hth : s.thread with
    | waiting seen =>
      rw [hth] at h
      exact h
    | passing cached q =>
      rw [hth] at h
      cases cached with
      | true => trivial
      | false => exact h
    | ended => trivial

theorem State.posted_put (who : Runner) (p : TopicPass) (h : Posted me s t) : Posted me (s.put p who) t := by
  have hclears : (s.put p who).clears = s.clears := by
    cases who with
    | conn => rfl
    | thread =>
      rw [State.put, State.clears, State.clears]
      cases s.thread with
      | waiting seen => rfl
      | passing cached q => rfl
      | ended => rfl
  have hcached : (s.put p who).cached me = s.cached me := by
    cases who with
    | conn => rfl
    | thread => rfl
  have hcount : (s.put p who).count = s.count := by
    cases who with
    | conn => rfl
    | thread => rfl
  rw [Posted] at h ⊢
  rwa [hclears, hcached, hcount]

theorem State.ended_put (who : Runner) (p : TopicPass) (h : s.thread = .ended) : (s.put p who).thread = .ended := by
  cases who with
  | conn => exact h
  | thread =>
    rw [State.put]
    simp only [h, Thread.put]

/-- A pass goes on to `p`, which still sees what it had to see. -/
theorem Awake.put {who : Runner} {p₀ : TopicPass} (hp₀ : s.pass who = some p₀) (p : TopicPass)
    (hworks : Works after t o p₀ → Works after t o p) (h : Awake me after s t o) : Awake me after (s.put p who) t o := by
  cases h with
  | works who' q hq hw =>
    by_cases hwho : who' = who
    · subst hwho
      obtain rfl := Option.some.inj (hp₀.symm.trans hq)
      exact .works who' p (State.pass_put hp₀ p) (hworks hw)
    · exact .works who' q ((State.pass_put_of_ne hwho p).trans hq) hw
  | posted h => exact .posted (State.posted_put who p h)
  | ended h => exact .ended (State.ended_put who p h)

/-- What was read for the subscription is what was notified. -/
theorem Inv.newest_of_mem_table (h : Inv me after s) {sub : Sub} {listing : List (Bytes × Int)}
    (hlists : ngxMqttTopicIsExpression sub.filter = true → Lists after s sub listing)
    (hmem : (t, o) ∈ s.table sub listing) : s.newest t = some o := by
  rw [State.table] at hmem
  split at hmem
  · next hwild =>
    obtain ⟨ho, -⟩ := (hlists hwild t o).1 hmem
    rw [State.newest, ← (h.offsets _ _ _ ho).1]
    exact ho
  · obtain ⟨newoffset, ho, heq⟩ := Option.map_eq_some_iff.1 (Option.mem_toList.1 hmem)
    obtain ⟨rfl, rfl⟩ := Prod.mk.inj heq
    exact ho

theorem mem_table {sub : Sub} {listing : List (Bytes × Int)}
    (hlists : ngxMqttTopicIsExpression sub.filter = true → Lists after s sub listing) (hcovers : sub.Covers after t)
    (ho : s.newest t = some o) : (t, o) ∈ s.table sub listing := by
  rw [Sub.Covers] at hcovers
  rw [State.table]
  split
  · next hwild =>
    rw [if_pos hwild] at hcovers
    refine (hlists hwild t o).2 ⟨?_, hcovers.2⟩
    rw [hcovers.1]
    exact ho
  · next hwild =>
    rw [if_neg hwild] at hcovers
    rw [hcovers, ho]
    exact List.mem_singleton_self _

theorem Works.read {sub : Sub} {rest : List Sub} {more : Bool} {listing : List (Bytes × Int)}
    (hlists : ngxMqttTopicIsExpression sub.filter = true → Lists after s sub listing) (ho : s.newest t = some o)
    (h : Works after t o ⟨sub :: rest, [], more⟩) :
    Works after t o ⟨rest, (s.table sub listing).map fun e => Task.mk e.1 e.2 sub, more⟩ := by
  rcases h with hmore | ⟨sub', hsub, hcovers⟩ | ⟨k, hk, -⟩
  · exact Or.inl hmore
  · rcases List.mem_cons.1 hsub with rfl | hsub
    · exact Or.inr (Or.inr ⟨⟨t, o, sub'⟩, List.mem_map_of_mem (f := fun e : Bytes × Int => Task.mk e.1 e.2 sub')
        (mem_table hlists hcovers ho), rfl, le_rfl⟩)
    · exact Or.inr (Or.inl ⟨sub', hsub, hcovers⟩)
  · cases hk

/-- The topics, and the offsets stored for the client, are as they were. -/
structure SameTopics (s s' : State) : Prop where
  subs : s'.subs = s.subs
  iswildcard : s'.iswildcard = s.iswildcard
  topics : s'.topics = s.topics
  server : s'.server = s.server
  underway : s'.underway = s.underway
  reached : s'.reached = s.reached
  orphaned : s'.orphaned = s.orphaned

theorem SameTopics.put (s : State) (p : TopicPass) (who : Runner) : SameTopics s (s.put p who) := by
  cases who with
  | thread => exact ⟨rfl, rfl, rfl, rfl, rfl, rfl, rfl⟩
  | conn => exact ⟨rfl, rfl, rfl, rfl, rfl, rfl, rfl⟩

theorem SameTopics.flagged (h : SameTopics s s') (hs : Flagged s) : Flagged s' := by
  rw [Flagged] at hs ⊢
  rwa [h.subs, h.iswildcard]

theorem SameTopics.held (h : SameTopics s s') (hheld : Held me s t) : Held me s' t := by
  rw [Held, State.entry] at hheld ⊢
  rwa [h.server, h.orphaned]

theorem SameTopics.served (h : SameTopics s s') (hs : Served me after s t o)
    (hawake : Awake me after s t o → Served me after s' t o) : Served me after s' t o :=
  hs.imp (h.reached ▸ le_rfl) (fun hu => h.underway ▸ hu) h.held hawake

theorem Inv.of_sameTopics (h : Inv me after s) (hsame : SameTopics s s')
    (htasks : ∀ who p, s'.pass who = some p → ∀ k ∈ p.todo, 0 ≤ k.newoffset ∧ k.newoffset ≤ currentOffset (s.topics k.topic))
    (hcounted : Counted me s')
    (hawake : ∀ t o, Covered me after s t → s.newest t = some o → Awake me after s t o → Served me after s' t o) :
    Inv me after s' where
  flagged := hsame.flagged h.flagged
  topic t := hsame.topics ▸ h.topic t
  offsets z t o ho := by
    rw [hsame.topics]
    exact h.offsets z t o (hsame.server ▸ ho)
  tasks who p hp k hk := by
    rw [hsame.topics]
    exact htasks who p hp k hk
  counted := hcounted
  served t o hc ho := by
    have hc' : Covered me after s t := hc.of_subs hsame.subs
    have ho' : s.newest t = some o := by rwa [State.newest, ← hsame.server]
    exact hsame.served (h.served t o hc' ho') (hawake t o hc' ho')

/-- The tasks of a runner that is at `p` now, and of the other one. -/
theorem State.tasks_put {P : Task → Prop} {who : Runner} {p₀ p : TopicPass} (hp₀ : s.pass who = some p₀)
    (hp : ∀ k ∈ p.todo, P k) (hothers : ∀ who' q, s.pass who' = some q → ∀ k ∈ q.todo, P k) (who' : Runner) (q : TopicPass)
    (hq : (s.put p who).pass who' = some q) : ∀ k ∈ q.todo, P k := by
  by_cases hwho : who' = who
  · subst hwho
    rw [State.pass_put hp₀] at hq
    obtain rfl := Option.some.inj hq
    exact hp
  · rw [State.pass_put_of_ne hwho] at hq
    exact hothers who' q hq

theorem Inv.read (h : Inv me after s) {who : Runner} {listing : List (Bytes × Int)}
    (hok : Ok me after s (.read who listing)) : Inv me after (s.readStep who listing) := by
  rw [State.readStep]
  split
  · next sub rest more hp =>
    simp only
    generalize htodo : (s.table sub listing).map (fun e => Task.mk e.1 e.2 sub) = todo
    have hlists := hok sub rest more hp
    have hnew : ∀ k ∈ todo, s.newest k.topic = some k.newoffset := by
      intro k hk
      rw [← htodo] at hk
      obtain ⟨e, he, rfl⟩ := List.mem_map.1 hk
      exact h.newest_of_mem_table hlists he
    have hbound : ∀ k ∈ todo, 0 ≤ k.newoffset ∧ k.newoffset ≤ currentOffset (s.topics k.topic) :=
      fun k hk => (h.offsets _ _ _ (hnew k hk)).2
    set s1 : State := { s with orphaned := fun t => s.orphaned t && !(todo.any fun k => k.topic == t) } with hs1
    have hpass : SamePasses s s1 := ⟨rfl, rfl, rfl, rfl, rfl⟩
    have hp1 : s1.pass who = some ⟨sub :: rest, [], more⟩ := (hpass.pass who).trans hp
    have hput := SameTopics.put s1 ⟨rest, todo, more⟩ who
    refine ⟨hput.flagged h.flagged, fun t => ?_, fun z t o ho => ?_, fun who' p hp' k hk => ?_, ?_, fun t o hc ho => ?_⟩
    · rw [hput.topics]
      exact h.topic t
    · rw [hput.server] at ho
      rw [hput.topics]
      exact h.offsets z t o ho
    · rw [hput.topics]
      exact State.tasks_put hp1 hbound (fun who q hq => h.tasks who q ((hpass.pass who).symm.trans hq)) who' p hp' k hk
    · exact State.counted_put who _ (hpass.counted h.counted)
    have hc' : Covered me after s t := hc.of_subs hput.subs
    have ho' : s.newest t = some o := by rwa [State.newest, hput.server] at ho
    by_cases ht : ∃ k ∈ todo, k.topic = t
    · obtain ⟨k, hk, rfl⟩ := ht
      obtain rfl := Option.some.inj ((hnew k hk).symm.trans ho')
      exact .awake (.works who _ (State.pass_put hp1 _) (Or.inr (Or.inr ⟨k, hk, rfl, le_rfl⟩)))
    have horphaned : s1.orphaned t = s.orphaned t := by
      have hany : (todo.any fun k => k.topic == t) = false := by
        rw [List.any_eq_false]
        intro k hk hkt
        exact ht ⟨k, hk, beq_iff_eq.1 hkt⟩
      simp only [hs1, hany, Bool.not_false, Bool.and_true]
    refine hput.served ((h.served t o hc' ho').imp le_rfl id (fun hheld => ?_) fun ha => .awake (hpass.awake ha)) fun ha => ?_
    · rw [Held] at hheld ⊢
      rwa [horphaned]
    · refine .awake (ha.put hp1 _ fun hw => ?_)
      have hread := Works.read hlists ho' hw
      rwa [htodo] at hread
  · exact h

/-! ## The body for a topic -/

theorem ringAdjust_low {old newoffset : Int} (hring : (old : ℚ) ≤ intMaxRing2) :
    ringAdjust old newoffset = (old, newoffset) := by
  have hlt : (old : ℚ) < intMaxRing := hring.trans_lt (by norm_num [intMaxRing2, intMaxRing1, intMaxRing])
  have hend : ¬ old ≥ intMaxRing := by
    rw [not_le]
    exact_mod_cast hlt
  rw [ringAdjust, if_neg hend, if_neg fun hx => not_lt.2 hring hx.1]

/-- Without `ismore` one page is enough. -/
theorem State.one_page {k : Task} {now old : Int} (hresume : s.resume me k now = .ok old) (hring : (old : ℚ) ≤ intMaxRing2)
    (hmore : s.goesOn me k now = false) : k.newoffset ≤ old + subPagesize := by
  rw [State.goesOn, hresume] at hmore
  simp only [ringAdjust_low hring] at hmore
  simp only [subMaxRange, subPagesize] at hmore ⊢
  split at hmore
  · have hpage := of_decide_eq_false hmore
    split at hpage
    · omega
    · omega
  · omega

theorem State.reached_body (W : ServerLibs) (k : Task) (clock : PassClock) (t : Bytes) :
    s.reached t ≤ (s.body W me k clock).reached t := by
  simp only [State.body, State.reach, Function.update_apply]
  split
  · next ht =>
    subst ht
    exact le_max_left _ _
  · exact le_rfl

theorem State.passed_keeps (h : Inv me after s) (W : ServerLibs) (k : Task) (clock : PassClock) :
    PassKeeps k.topic ⟨s.topics k.topic, s.server.dicts, s.oldoffset me k, [], [], []⟩ (s.passed W me k clock) :=
  passFor_keeps (h.topic k.topic)

theorem Held.body (hinv : Inv me after s) (h : Held me s t) (W : ServerLibs) (k : Task) (clock : PassClock) :
    Held me (s.body W me k clock) t := by
  rcases h with hentry | horphaned
  · exact Or.inl ((State.passed_keeps hinv W k clock).entries _ hentry)
  · refine Or.inr ?_
    simp only [State.body, State.reach, Function.update_apply]
    split
    · next ht =>
      subst ht
      rw [horphaned]
      rfl
    · exact horphaned

/-- **What the body does for its topic**: more is left, or the client's offset is that of the notification,
or a message waits for its acknowledgement. -/
theorem State.body_spec (hL : ReadsBigEndian W.toLibs) (h : Inv me after s) {k : Task} {clock : PassClock} {old : Int}
    (hnonneg : 0 ≤ k.newoffset) (hnew : k.newoffset ≤ currentOffset (s.topics k.topic))
    (hresume : s.resume me k clock.resend = .ok old) (hring : (old : ℚ) ≤ intMaxRing2)
    (hmore : s.goesOn me k clock.resend = false) :
    (k.newoffset : WithBot Int) ≤ (s.body W me k clock).reached k.topic ∨ Held me (s.body W me k clock) k.topic := by
  have hreached : ((s.passed W me k clock).consumer : WithBot Int) ≤ (s.body W me k clock).reached k.topic := by
    simp only [State.body, State.reach, Function.update_self]
    exact le_max_right _ _
  cases hentry : s.entry me k.topic with
  | some v => exact Or.inr (Held.body h (Or.inl (by rw [hentry]; rfl)) W k clock)
  | none =>
    have hold : old = s.oldoffset me k := by
      rw [State.entry] at hentry
      rw [State.resume, resendFrom, hentry] at hresume
      simp only [ite_self] at hresume
      exact (Except.ok.inj hresume).symm
    have hend := passFor_end (q := ⟨s.topics k.topic, s.server.dicts, s.oldoffset me k, [], [], []⟩) hL (h.topic k.topic) hresume
      hring hnonneg (State.one_page hresume hring hmore) hnew
    rcases hend with ⟨hle, hsame⟩ | hle | hids
    · refine Or.inl (le_trans ?_ hreached)
      have hcons : (s.passed W me k clock).consumer = s.oldoffset me k := hsame
      rw [hcons, ← hold]
      exact_mod_cast hle
    · refine Or.inl (le_trans ?_ hreached)
      exact_mod_cast (show k.newoffset ≤ (s.passed W me k clock).consumer from hle)
    · -- a message with QoS was sent: there is an entry for it, or there is none
      refine Or.inr ?_
      cases hafter : (s.passed W me k clock).dicts.getOutstanding me.1 k.topic with
      | some v => exact Or.inl (Option.isSome_iff_exists.2 ⟨v, hafter⟩)
      | none =>
        refine Or.inr ?_
        have hne : (s.passed W me k clock).ids.isEmpty = false := by
          rw [List.isEmpty_eq_false_iff]
          exact hids
        simp only [State.body, State.reach, Function.update_self, hafter, hne, Option.isNone_none, Bool.not_false,
          Bool.and_self, Bool.or_true]

theorem Inv.raise (h : Inv me after s) (who : Runner) : Inv me after (s.raise who) := by
  have hended : (s.raise who).thread = .ended := by
    cases who with
    | thread => rfl
    | conn => rfl
  have hsame : SameTopics s (s.raise who) := by
    cases who with
    | thread => exact ⟨rfl, rfl, rfl, rfl, rfl, rfl, rfl⟩
    | conn => exact ⟨rfl, rfl, rfl, rfl, rfl, rfl, rfl⟩
  refine h.of_sameTopics hsame (fun who' p hp => ?_) ?_ fun t o _ _ _ => .awake (.ended hended)
  · cases who' with
    | thread =>
      rw [State.pass, hended] at hp
      cases hp
    | conn =>
      cases who with
      | thread => exact h.tasks .conn p hp
      | conn => cases hp
  · rw [Counted, hended]
    trivial

theorem Inv.body (hL : ReadsBigEndian W.toLibs) (h : Inv me after s) {who : Runner} {clock : PassClock}
    (hok : Ok me after s (.body who clock)) : Inv me after (s.bodyStep W me who clock) := by
  rw [State.bodyStep]
  split
  · next rest k todo more hp =>
    cases hresume : s.resume me k clock.resend with
    | error e => exact h.raise who
    | ok old =>
      simp only
      have hring := hok rest k todo more hp old hresume
      obtain ⟨hnonneg, hnew⟩ := h.tasks who _ hp k List.mem_cons_self
      have hkeeps := State.passed_keeps h W k clock
      have hpass : SamePasses s (s.body W me k clock) := ⟨rfl, rfl, rfl, rfl, rfl⟩
      have hp1 : (s.body W me k clock).pass who = some ⟨rest, k :: todo, more⟩ := (hpass.pass who).trans hp
      have hput := SameTopics.put (s.body W me k clock) ⟨rest, todo, more || s.goesOn me k clock.resend⟩ who
      have hcurrent : ∀ t, currentOffset ((s.body W me k clock).topics t) = currentOffset (s.topics t) := by
        intro t
        simp only [State.body, State.reach, Function.update_apply]
        split
        · next ht =>
          subst ht
          exact hkeeps.current
        · rfl
      refine ⟨hput.flagged h.flagged, fun t => ?_, fun z t o ho => ?_, fun who' p hp' k' hk' => ?_, ?_,
        fun t o hc ho => ?_⟩
      · rw [hput.topics]
        simp only [State.body, State.reach, Function.update_apply]
        split
        · next ht =>
          subst ht
          exact hkeeps.topic
        · exact h.topic t
      · rw [hput.server] at ho
        rw [hput.topics, hcurrent]
        exact h.offsets z t o ho
      · rw [hput.topics, hcurrent]
        refine State.tasks_put (P := fun k => 0 ≤ k.newoffset ∧ k.newoffset ≤ currentOffset (s.topics k.topic)) hp1
          (fun k hk => h.tasks who _ hp k (List.mem_cons_of_mem _ hk))
          (fun who q hq => h.tasks who q ((hpass.pass who).symm.trans hq)) who' p hp' k' hk'
      · exact State.counted_put who _ (hpass.counted h.counted)
      have hc' : Covered me after s t := hc.of_subs hput.subs
      have ho' : s.newest t = some o := by rwa [State.newest, hput.server] at ho
      have hserved : Served me after (s.body W me k clock) t o :=
        (h.served t o hc' ho').imp (State.reached_body W k clock t) id (fun hheld => hheld.body h W k clock)
          fun ha => .awake (hpass.awake ha)
      by_cases hmine : t = k.topic ∧ o ≤ k.newoffset ∧ s.goesOn me k clock.resend = false
      · -- the task is done
        obtain ⟨rfl, hle, hmore⟩ := hmine
        rcases State.body_spec hL h hnonneg hnew hresume hring hmore with hreached | hheld
        · refine .reached (hput.reached ▸ le_trans ?_ hreached)
          exact_mod_cast hle
        · exact .held (hput.held hheld)
      refine hput.served hserved fun ha => .awake (ha.put hp1 _ fun hw => ?_)
      rcases hw with hmore | hrest | ⟨k', hk', ht, hle⟩
      · exact Or.inl (by rw [show more = true from hmore, Bool.true_or])
      · exact Or.inr (Or.inl hrest)
      · rcases List.mem_cons.1 hk' with rfl | hk'
        · refine Or.inl ?_
          cases hmore : s.goesOn me k' clock.resend with
          | true => exact Bool.or_true _
          | false => exact absurd ⟨ht.symm, hle, hmore⟩ hmine
        · exact Or.inr (Or.inr ⟨k', hk', ht, hle⟩)
  · exact h

/-! ## The end of a pass -/

theorem SameTopics.leave (me : ClientId) (s : State) (who : Runner) : SameTopics s (s.leave me who) := by
  cases who with
  | conn => exact ⟨rfl, rfl, rfl, rfl, rfl, rfl, rfl⟩
  | thread =>
    rw [State.leave]
    split
    · exact ⟨rfl, rfl, rfl, rfl, rfl, rfl, rfl⟩
    · exact ⟨rfl, rfl, rfl, rfl, rfl, rfl, rfl⟩

theorem State.pass_leave_of_ne {who who' : Runner} (hne : who' ≠ who) : (s.leave me who).pass who' = s.pass who' := by
  cases who with
  | conn =>
    cases who' with
    | conn => exact absurd rfl hne
    | thread => rfl
  | thread =>
    cases who' with
    | thread => exact absurd rfl hne
    | conn =>
      rw [State.leave]
      split
      · rfl
      · rfl

theorem State.pass_leave (who : Runner) : (s.leave me who).pass who = none := by
  cases who with
  | conn => rfl
  | thread =>
    rw [State.leave, State.pass]
    split
    · rfl
    · next hth =>
      cases hs : s.thread with
      | waiting seen => rfl
      | passing cached p => exact absurd hs (hth cached p)
      | ended => rfl

theorem State.ended_leave (who : Runner) (h : s.thread = .ended) : (s.leave me who).thread = .ended := by
  cases who with
  | conn => exact h
  | thread =>
    rw [State.leave, h]
    exact h

/-- A pass ends with `ismore` as it found it: then there is a post more. -/
theorem Counted.leave {who : Runner} {p : TopicPass} (hp : s.pass who = some p) (hc : Counted me s) (more : Bool)
    (count : Nat) (hcount : s.count + more.toNat ≤ count) :
    Counted me (({ s with ismore := more, count := count } : State).leave me who) := by
  cases who with
  | conn =>
    rw [Counted] at hc ⊢
    rw [State.leave]
    simp only [State.cached] at hc ⊢
    cases hth : s.thread with
    | waiting seen =>
      rw [hth] at hc
      simp only at hc ⊢
      omega
    | passing cached q =>
      rw [hth] at hc
      cases cached with
      | true => trivial
      | false =>
        simp only at hc ⊢
        omega
    | ended => trivial
  | thread =>
    rw [State.pass] at hp
    cases hth : s.thread with
    | waiting seen =>
      rw [hth] at hp
      cases hp
    | ended =>
      rw [hth] at hp
      cases hp
    | passing cached q =>
      rw [Counted, hth] at hc
      rw [State.leave, Counted]
      simp only
      cases cached with
      | true =>
        have hdeleted : AssocList.get (AssocList.delete s.cache me.1) me.1 = none := AssocList.get_delete_self _ _
        simp only [State.cached, if_true, hdeleted, Option.isSome_none, Bool.toNat_false]
        omega
      | false =>
        simp only [State.cached, Bool.false_eq_true, if_false] at hc ⊢
        omega

theorem Inv.finish (h : Inv me after s) (who : Runner) : Inv me after (s.finish me who) := by
  rw [State.finish]
  split
  · next more hp =>
    set s1 : State := { s with ismore := more, count := s.count + more.toNat } with hs1
    have hend : (if more = true then s.post else { s with ismore := false }) = s1 := by
      cases more with
      | true => rfl
      | false => rfl
    rw [hend]
    have hleave := SameTopics.leave me s1 who
    have htopics : SameTopics s (s1.leave me who) :=
      ⟨hleave.subs, hleave.iswildcard, hleave.topics, hleave.server, hleave.underway, hleave.reached, hleave.orphaned⟩
    have hp1 : ∀ who', s1.pass who' = s.pass who' := State.pass_congr rfl rfl
    refine h.of_sameTopics htopics (fun who' p hp' => ?_) (h.counted.leave hp more _ le_rfl) fun t o _ _ ha => .awake ?_
    · by_cases hwho : who' = who
      · subst hwho
        rw [State.pass_leave] at hp'
        cases hp'
      · rw [State.pass_leave_of_ne hwho, hp1] at hp'
        exact h.tasks who' p hp'
    · by_cases hended : s.thread = .ended
      · exact .ended (State.ended_leave who hended)
      cases more with
      | true => exact .posted ((posted_post h.counted hended t).leave who)
      | false =>
        cases ha with
        | works who' p hp' hw =>
          by_cases hwho : who' = who
          · -- nothing is left of this pass
            subst hwho
            obtain rfl := Option.some.inj (hp.symm.trans hp')
            rcases hw with hmore | ⟨sub, hsub, -⟩ | ⟨k, hk, -⟩
            · cases hmore
            · cases hsub
            · cases hk
          · exact .works who' p ((State.pass_leave_of_ne hwho).trans ((hp1 who').trans hp')) hw
        | posted hposted => exact .posted (Posted.leave (s := s1) hposted who)
        | ended he => exact absurd he hended
  · exact h

/-! ## The client's messages -/

theorem Inv.pingreq (h : Inv me after s) : Inv me after s.pingreq := by
  rw [State.pingreq]
  split
  · exact h
  split
  · refine h.of_sameTopics ⟨rfl, rfl, rfl, rfl, rfl, rfl, rfl⟩
      (fun who p hp => h.tasks who p ((State.pass_congr rfl rfl who).symm.trans hp)) ?_ fun t o _ _ ha => .awake ?_
    · have hcounted := h.counted
      rw [Counted] at hcounted ⊢
      simp only [State.cached] at hcounted ⊢
      cases hth : s.thread with
      | waiting seen =>
        rw [hth] at hcounted
        simp only at hcounted ⊢
        omega
      | passing cached p =>
        rw [hth] at hcounted
        cases cached with
        | true => trivial
        | false =>
          simp only at hcounted ⊢
          omega
      | ended => trivial
    · cases ha with
      | works who p hp hw => exact .works who p ((State.pass_congr rfl rfl who).trans hp) hw
      | posted hp =>
        refine .posted ?_
        rcases hp with htwo | ⟨hone, hright⟩
        · exact Or.inl (Nat.le_succ_of_le htwo)
        · exact Or.inr ⟨Nat.le_succ_of_le hone, hright⟩
      | ended he => exact .ended he
  · exact h

theorem Counted.post (hc : Counted me s) : Counted me s.post := by
  rw [Counted] at hc ⊢
  rw [State.post]
  simp only [State.cached] at hc ⊢
  cases hth : s.thread with
  | waiting seen =>
    rw [hth] at hc
    simp only [Bool.toNat_true] at hc ⊢
    omega
  | passing cached p =>
    rw [hth] at hc
    cases cached with
    | true => trivial
    | false =>
      simp only at hc ⊢
      omega
  | ended => trivial

theorem State.reached_reach (topic : Bytes) (offset : Int) (t : Bytes) : s.reached t ≤ (s.reach topic offset).reached t := by
  simp only [State.reach, Function.update_apply]
  split
  · next ht =>
    subst ht
    exact le_max_left _ _
  · exact le_rfl

/-- An acknowledgement posts for all topics, unless there is nothing newer of its own. -/
theorem Inv.puback (h : Inv me after s) (p : Puback) : Inv me after (s.puback W me p) := by
  rw [State.puback]
  split
  · exact h
  split
  · exact h.raise .conn
  split
  · exact h
  next v hfound =>
  set s1 := (s.withServer me (parseMessagePuback W p s.server).1 (some v.topic)).reach v.topic v.offset with hs1
  have hpass : SamePasses s s1 := ⟨rfl, rfl, rfl, rfl, rfl⟩
  have hoffsets : s1.server.offsets = s.server.offsets := parseMessagePuback_offsets W p s.server
  have hcovered : ∀ t, Covered me after s1 t → Covered me after s t := fun t hc => hc.of_subs rfl
  have hother : ∀ t o, Covered me after s t → s.newest t = some o → t ≠ v.topic → Served me after s1 t o := by
    intro t o hc ho hne
    refine (h.served t o hc ho).imp (State.reached_reach _ _ t) id (fun hheld => ?_) fun ha => .awake (hpass.awake ha)
    exact hheld.withServer _ fun heq => hne (Option.some.inj heq).symm
  simp only
  split
  · refine ⟨h.flagged, h.topic, fun z t o ho => h.offsets z t o (hoffsets ▸ ho), fun who q hq => ?_, (hpass.counted h.counted).post,
      fun t o _ _ => .awake (Awake.post (hpass.counted h.counted))⟩
    exact h.tasks who q ((hpass.pass who).symm.trans ((State.pass_congr rfl rfl who).symm.trans hq))
  · next hnewer =>
    refine ⟨h.flagged, h.topic, fun z t o ho => h.offsets z t o (hoffsets ▸ ho), fun who q hq => ?_, hpass.counted h.counted,
      fun t o hc ho => ?_⟩
    · exact h.tasks who q ((hpass.pass who).symm.trans hq)
    have ho' : s.newest t = some o := by rwa [State.newest, hoffsets] at ho
    by_cases ht : t = v.topic
    · -- nothing newer was notified than what is acknowledged
      subst ht
      refine .reached ?_
      have hle : o ≤ v.offset := by
        by_contra hlt
        refine hnewer ?_
        rw [← subscribeStore_eq]
        rw [State.newest] at ho'
        rw [ho']
        exact decide_eq_true (not_le.1 hlt)
      have hmax : ((v.offset : Int) : WithBot Int) ≤ s1.reached v.topic := by
        rw [hs1, State.reach]
        simp only [Function.update_self]
        exact le_max_right _ _
      refine le_trans ?_ hmax
      exact_mod_cast hle
    · exact hother t o (hcovered t hc) ho' ht

theorem reached_storeMins (mins : List (Bytes × Int)) (f : Bytes → WithBot Int) (t : Bytes) :
    f t ≤ mins.foldl (fun f e => Function.update f e.1 (max (f e.1) e.2)) f t := by
  induction mins generalizing f with
  | nil => exact le_rfl
  | cons e mins ih =>
    refine le_trans ?_ (ih _)
    simp only [Function.update_apply]
    split
    · next ht =>
      rw [ht]
      exact le_max_left _ _
    · exact le_rfl

theorem mem_foldl_putSub {order subs : List Sub} {sub : Sub} (h : sub ∈ order.foldl putSub subs) :
    sub ∈ order ∨ sub ∈ subs := by
  induction order generalizing subs with
  | nil => exact Or.inr h
  | cons x order ih =>
    rcases ih h with h | h
    · exact Or.inl (List.mem_cons_of_mem _ h)
    · rcases List.mem_cons.1 h with rfl | h
      · exact Or.inl List.mem_cons_self
      · exact Or.inr (List.mem_filter.1 h).1

theorem Inv.subscribe (h : Inv me after s) (order : List Sub) (mins : List (Bytes × Int)) :
    Inv me after (s.subscribe me order mins) := by
  rw [State.subscribe]
  split
  · exact h
  next hfree =>
  have hnone : s.conn = none := by simpa using hfree
  refine ⟨fun sub hsub hwild => ?_, h.topic, h.offsets, fun who p hp => ?_, h.counted, fun t o hc ho => ?_⟩
  · rcases mem_foldl_putSub hsub with horder | hold
    · exact Bool.or_eq_true_iff.2 (Or.inr (List.any_eq_true.2 ⟨sub, horder, hwild⟩))
    · exact Bool.or_eq_true_iff.2 (Or.inl (h.flagged sub hold hwild))
  · cases who with
    | thread => exact h.tasks .thread p hp
    | conn =>
      obtain rfl := Option.some.inj hp
      exact List.forall_mem_nil _
  obtain ⟨sub, hsub, hcovers⟩ := hc.sub
  rcases mem_foldl_putSub hsub with horder | hold
  · -- the pass of this message
    exact .awake (.works .conn _ rfl (Or.inr (Or.inl ⟨sub, horder, hcovers⟩)))
  refine (h.served t o ⟨hc.plain, hc.mine, sub, hold, hcovers⟩ ho).imp (reached_storeMins mins s.reached t) id id
    fun ha => .awake ?_
  cases ha with
  | works who p hp hw =>
    cases who with
    | thread => exact .works .thread p hp hw
    | conn =>
      rw [State.pass, hnone] at hp
      cases hp
  | posted hp => exact .posted hp
  | ended he => exact .ended he

/-! ## Every run -/

/-- **One step** keeps the invariant. -/
theorem Inv.step (hL : ReadsBigEndian W.toLibs) (h : Inv me after s) (c : Step) (hok : Ok me after s c) :
    Inv me after (step W me after s c) := by
  cases c with
  | publish topic data index => exact h.publish hok
  | notify topic offset => exact h.notify hok
  | handle topic offset => exact h.handle topic offset
  | forget => exact h.forget
  | expire key => exact h.expire key
  | wake order => exact h.wake hok
  | timeout order => exact h.timeout hok
  | read who listing => exact h.read hok
  | body who clock => exact h.body hL hok
  | finish who => exact h.finish who
  | subscribe order mins => exact h.subscribe order mins
  | puback p => exact h.puback p
  | pingreq => exact h.pingreq

theorem Start.inv (h : Start me after s) : Inv me after s where
  flagged := h.flagged
  topic := h.topic
  offsets := h.offsets
  tasks who p hp := by
    obtain ⟨seen, hth⟩ := h.waiting
    cases who with
    | thread =>
      rw [State.pass, hth] at hp
      cases hp
    | conn =>
      rw [State.pass, h.conn] at hp
      cases hp
  counted := by
    obtain ⟨seen, hth⟩ := h.waiting
    rw [Counted, hth, h.cached, h.ismore]
    exact Nat.zero_le _
  served t o hc ho := by
    rcases h.recovered t o hc ho with hreached | hunderway
    · exact .reached hreached
    · exact .underway hunderway

theorem Inv.run (hL : ReadsBigEndian W.toLibs) (h : Start me after s) {cs : List Step}
    (hok : Always (Wakeup.step W me after) (Ok me after) s cs) : Inv me after (Trace.run (Wakeup.step W me after) s cs) :=
  run_inv (Wakeup.step W me after) (fun _ c hi hc => hi.step hL c hc) h.inv hok

/-- With nothing posted, nothing is left to see. -/
theorem Inv.quiet (h : Inv me after s) {seen : Bool} (hth : s.thread = .waiting seen) (hcount : s.count = 0)
    (hconn : s.conn = none) (hc : Covered me after s t) (ho : s.newest t = some o) :
    (o : WithBot Int) ≤ s.reached t ∨ s.underway t = true ∨ Held me s t := by
  cases h.served t o hc ho with
  | reached hreached => exact Or.inl hreached
  | underway hunderway => exact Or.inr (Or.inl hunderway)
  | held hheld => exact Or.inr (Or.inr hheld)
  | awake ha =>
    cases ha with
    | works who p hp hw =>
      cases who with
      | thread =>
        have hnone : s.thread.pass = none := by
          rw [hth]
          rfl
        cases hnone.symm.trans hp
      | conn => cases hconn.symm.trans hp
    | posted hp =>
      rcases hp with htwo | ⟨hone, -⟩
      · exact absurd (htwo.trans hcount.le) (by omega)
      · exact absurd (hone.trans hcount.le) (by omega)
    | ended he => cases hth.symm.trans he

end

/-! ## A message that the thread is woken for -/

def newSession : State where
  subs := []
  topics _ := .empty
  server := ⟨⟨fun _ => none, fun _ => none⟩, fun _ _ => none, [], fun _ _ => none, []⟩
  cache := []
  count := 0
  iswildcard := false
  ismore := false
  thread := .waiting false
  conn := none
  underway _ := false
  reached _ := ⊥
  orphaned _ := false

def subA : Sub := ⟨[0x61], 1, -1⟩

def noneBehind : Behind := fun _ => Stream'.const 0

/-- Subscribed, published, notified, sent by the thread and acknowledged. -/
def oneWakeup : List Step :=
  [.subscribe [subA] [], .read .conn [], .finish .conn, .publish [0x61] (toY 7).message.bytes 24, .notify [0x61] 1,
    .handle [0x61] 1, .wake [subA], .read .thread [], .body .thread (.still 0), .finish .thread, .puback (pubackOf clientY 1)]

theorem start_newSession : Start clientY noneBehind newSession where
  flagged _ h := by cases h
  waiting := ⟨false, rfl⟩
  conn := rfl
  ismore := rfl
  cached := rfl
  topic := TopicOk.empty
  offsets z t o h := by cases h
  reached t p := ⟨fun h => absurd h (WithBot.bot_ne_coe), fun h => by cases h⟩
  recovered t o _ h := by cases h

theorem ok_oneWakeup :
    Always (step bigEndianServer clientY noneBehind) (Ok clientY noneBehind) newSession oneWakeup := by
  refine ⟨trivial, ?_, trivial, ⟨?_, ?_⟩, ?_, trivial, ?_, ?_, ?_, trivial, rfl, trivial⟩
  · rintro sub rest more hp hwild
    obtain ⟨rfl, -⟩ := List.cons.inj (congrArg TopicPass.rest (Option.some.inj hp))
    exact absurd hwild (by decide)
  · change ((0 + 1 : Nat) : ℚ) ≤ intMaxRing2
    norm_num [intMaxRing2, intMaxRing1, intMaxRing]
  · exact ⟨{ (toY 7).message with rest := [0, 7, 0, 0, 0, 1] }, by decide +kernel, rfl, by decide +kernel⟩
  · change (1 : Nat) ≤ _
    decide +kernel
  · intro seen hth
    obtain rfl : false = seen := Thread.waiting.inj hth
    exact List.Perm.refl [subA]
  · rintro sub rest more hp hwild
    obtain ⟨rfl, -⟩ := List.cons.inj (congrArg TopicPass.rest (Option.some.inj hp))
    exact absurd hwild (by decide)
  · rintro rest k todo more hp old hresume
    obtain ⟨rfl, -⟩ := List.cons.inj (congrArg TopicPass.todo (Option.some.inj hp))
    obtain rfl : (0 : Int) = old := Except.ok.inj hresume
    norm_num [intMaxRing2, intMaxRing1, intMaxRing]

end NgxPlus.Mqtt.Wakeup
