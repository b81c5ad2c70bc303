import NgxPlus.Lib.Trace
import NgxPlus.Diversion.Numset

/-!
# Runs of the configuration calls

A worker's Lua code configures the engine with five calls; each runs to its end under the
mutex or in a single worker, so a history is a list of `Call`s folded over `Shm`. Between
two calls, requests move `lock` freely: a runtime message carries the value it meets.

* `version_law`: the stored version only grows or drops to 0, and only by an accepted
  runtime message.
* `statusMachine_iff`: status stays inside its documented values and 2 is entered by
  activation only, exactly when no message for the stored version reaches a state of
  status -1 with an undocumented status (`SaneStatus`): that branch stores the field
  unchecked.
-/

namespace NgxPlus.Diversion

open ByteMem Decode Trace

inductive Call
  | updateRuntimeinfo (lock : UInt64) (buf : Bytes) (after : Mem) (slab : Stream' Bool)
  | updatePolicy (rodata : Rodata) (buf : Bytes) (after : Mem) (slab : Stream' Bool) (ver : Nat)
  | updateNumset (buf : Bytes) (after : Mem) (slab : Stream' Bool) (pid ver : Nat)
  | updateBitvector (buf : Bytes) (after : Mem) (slab : Stream' Bool) (pid ver : Nat)
  | activePolicy (ver : Nat)

def exec (s : Shm) : Call → Rc × Shm
  | .updateRuntimeinfo lock buf after slab => updateRuntimeinfo { s with lock := lock } buf after slab
  | .updatePolicy rodata buf after slab ver => updatePolicy rodata s buf after slab ver
  | .updateNumset buf after slab pid ver => updateNumset s buf after slab pid ver
  | .updateBitvector buf after slab pid ver => updateBitvector s buf after slab pid ver
  | .activePolicy ver => activePolicy s ver

def step (s : Shm) (c : Call) : Shm := (exec s c).2

/-- The zones as the master process sets them up; a new shared mapping is zero-filled. -/
def initialState (hasBitset : Bool) : Shm :=
  ngxHttpLuaDiversionInitSysconfZone
    (if hasBitset then some (ngxHttpLuaDiversionInitBitsetZone fun _ => 0) else none)

/-! ## One call -/

/-- A runtime call is refused outright or has one of the outcomes of its message. -/
theorem updateRuntimeinfo_cases (s : Shm) (buf : Bytes) (after : Mem) (slab : Stream' Bool) :
    (buf.length < 2 ∧ updateRuntimeinfo s buf after slab = (.error, s)) ∨
    (2 ≤ buf.length ∧ RuntimeOutcome s (.ofBuf buf after slab)
      (updateRuntimeinfo s buf after slab).1 (updateRuntimeinfo s buf after slab).2) := by
  unfold updateRuntimeinfo
  split
  · exact Or.inl ⟨‹_›, rfl⟩
  · exact Or.inr ⟨by omega, diversionDecodeRuntimeinfo_outcome _ _⟩

@[simp] theorem version_makeRoom (s : Shm) : (makeRoom s).version = s.version := by
  unfold makeRoom; split <;> rfl

@[simp] theorem version_installRuntime (s : Shm) (status version : Nat) (b : RuntimeBody) (d : Dec) :
    (installRuntime s status version b d).version = version := rfl

@[simp] theorem status_installRuntime (s : Shm) (status version : Nat) (b : RuntimeBody) (d : Dec) :
    (installRuntime s status version b d).status = toInt16 status := by
  simp only [installRuntime]

theorem activePolicy_cases (s : Shm) (ver : Nat) :
    activePolicy s ver = (.error, s) ∨
    (s.status = 1 ∧ s.version = ver ∧ activePolicy s ver = (.ok, { s with status := 2 })) := by
  unfold activePolicy
  split
  · exact Or.inl rfl
  · exact Or.inr (by grind)

/-! ## Versions -/

/-- What the law says of one call. -/
def VersionLaw (s : Shm) (c : Call) : Prop :=
  ((step s c).version = s.version ∨ s.version < (step s c).version ∨ (step s c).version = 0) ∧
  ((step s c).version ≠ s.version → ∃ lock buf after slab, c = .updateRuntimeinfo lock buf after slab ∧
    (diversionDecodeRuntimeinfo { s with lock := lock } (.ofBuf buf after slab)).1 = .ok) ∧
  ((exec s c).1 = .error ∨ (exec s c).1 = .declined → (step s c).version = s.version)

theorem RuntimeOutcome.version {s s' : Shm} {m : Dec} {rc : Rc} (h : RuntimeOutcome s m rc s') :
    s'.version = s.version ∨
    (rc = .ok ∧ s'.version = msgVersion m ∧ (s.version < msgVersion m ∨ msgVersion m = 0)) := by
  cases h with
  | same | refused | declined => exact Or.inl rfl
  | failed => exact Or.inl (version_makeRoom s)
  | installed hg => exact Or.inr ⟨rfl, rfl, (runtimeGate_replace hg).1⟩

theorem PolicyOutcome.version {s s' : Shm} {ver : Nat} {rc : Rc} (h : PolicyOutcome s ver rc s') :
    s'.version = s.version := by
  cases h <;> rfl

theorem VersionLaw.of_eq {s : Shm} {c : Call} (h : (step s c).version = s.version) : VersionLaw s c :=
  ⟨Or.inl h, fun hne => absurd h hne, fun _ => h⟩

theorem versionLaw_step (s : Shm) (c : Call) : VersionLaw s c := by
  cases c with
  | updateRuntimeinfo lock buf after slab =>
    rcases updateRuntimeinfo_cases { s with lock := lock } buf after slab with ⟨-, he⟩ | ⟨hlen, ho⟩
    · exact .of_eq (congrArg (fun r => r.2.version) he)
    · rcases ho.version with heq | ⟨hok, hv, hlt⟩
      · exact .of_eq heq
      · have hdec : updateRuntimeinfo { s with lock := lock } buf after slab =
            diversionDecodeRuntimeinfo { s with lock := lock } (.ofBuf buf after slab) :=
          if_neg (by omega)
        refine ⟨Or.inr (hlt.imp (fun h => ?_) fun h => ?_), fun _ => ?_, fun h => ?_⟩
        · exact lt_of_lt_of_eq h hv.symm
        · exact hv.trans h
        · exact ⟨lock, buf, after, slab, rfl, by rw [← hdec]; exact hok⟩
        · exact absurd hok (by rcases h with h | h <;> simp only [exec] at h <;> rw [h] <;> decide)
  | updatePolicy rodata buf after slab ver =>
    exact .of_eq (diversionDecodePolicy_outcome rodata s (.ofBuf buf after slab) ver).version
  | updateNumset buf after slab pid ver =>
    rcases updateNumset_cases s buf after slab pid ver with he | ⟨-, -, hf⟩
    · exact .of_eq (congrArg Shm.version he)
    · exact .of_eq hf.version
  | updateBitvector buf after slab pid ver =>
    rcases updateBitvector_cases s buf after slab pid ver with he | ⟨-, -, hf⟩
    · exact .of_eq (congrArg Shm.version he)
    · exact .of_eq hf.version
  | activePolicy ver =>
    rcases activePolicy_cases s ver with he | ⟨-, -, he⟩
    · exact .of_eq (congrArg (fun r => r.2.version) he)
    · exact .of_eq (congrArg (fun r => r.2.version) he)

/-- **Versions never go backward**, whatever is called in whatever order. -/
theorem version_law (hasBitset : Bool) (cs : List Call) :
    Always step VersionLaw (initialState hasBitset) cs :=
  always_of_forall step versionLaw_step _ _

/-! ## Status -/

/-- The values documented on the field. -/
def DocumentedStatus (n : Int) : Prop := n = -1 ∨ n = 0 ∨ n = 1 ∨ n = 2 ∨ n = 3

/-- The status machine along a run: every state reached has a documented status, and every
step into status 2 is an activation, in status 1, of the stored version. -/
def StatusMachine (s : Shm) (cs : List Call) : Prop :=
  (∀ as bs, cs = as ++ bs → DocumentedStatus (run step s as).status) ∧
  (∀ as c bs, cs = as ++ c :: bs → (run step s as).status ≠ 2 → (step (run step s as) c).status = 2 →
    (run step s as).status = 1 ∧ c = .activePolicy (run step s as).version)

/-- A message for the stored version that meets status -1 carries a status that a message
may carry (or leaves -1). -/
def SaneStatus (s : Shm) : Call → Prop
  | .updateRuntimeinfo _ buf after slab =>
    2 ≤ buf.length → s.status = -1 → msgVersion (.ofBuf buf after slab) = s.version →
      msgStatus (.ofBuf buf after slab) ∈ [0, 1, 3, 65535]
  | _ => True

/-- The machine, seen from one step. -/
def StatusStep (s : Shm) (c : Call) : Prop :=
  DocumentedStatus (step s c).status ∧
  (s.status ≠ 2 → (step s c).status = 2 → s.status = 1 ∧ c = .activePolicy s.version)

theorem msgStatus_le (d : Dec) : msgStatus d ≤ 65535 := d.readUint16_le

/-- What the unchecked branch may store. -/
theorem toInt16_sane_iff {n : Nat} (h : n ≤ 65535) :
    DocumentedStatus (toInt16 n) ∧ toInt16 n ≠ 2 ↔ n ∈ [0, 1, 3, 65535] := by
  simp only [DocumentedStatus, List.mem_cons, List.not_mem_nil, or_false, toInt16]
  split <;> omega

theorem PolicyOutcome.status {s s' : Shm} {ver : Nat} {rc : Rc} (h : PolicyOutcome s ver rc s') :
    s'.status = s.status := by
  cases h <;> rfl

/-- A step that keeps the status, or moves to 0, is fine. -/
theorem StatusStep.of_status {s : Shm} {c : Call} (hs : DocumentedStatus s.status)
    (h : (step s c).status = s.status ∨ (step s c).status = 0) : StatusStep s c := by
  rcases h with h | h
  · exact ⟨by rwa [h], fun h2 h2' => absurd (h.symm.trans h2') h2⟩
  · exact ⟨by rw [h]; exact Or.inr (Or.inl rfl), fun _ h2' => absurd (h.symm.trans h2') (by decide)⟩

theorem status_makeRoom (s : Shm) :
    (makeRoom s).status = s.status ∨ (makeRoom s).status = 0 := by
  unfold makeRoom; split
  · exact Or.inr rfl
  · exact Or.inl rfl

/-- A runtime call that is not an unchecked store keeps the status, clears it, or stores a
status that was checked. -/
theorem RuntimeOutcome.status {s s' : Shm} {m : Dec} {rc : Rc} (h : RuntimeOutcome s m rc s') :
    (s.version = msgVersion m ∧ s.status = -1 ∧ s'.status = toInt16 (msgStatus m)) ∨
    (¬ (s.version = msgVersion m ∧ s.status = -1) ∧ (s'.status = s.status ∨ s'.status = 0 ∨
      s'.status = toInt16 (msgStatus m) ∧ (msgStatus m = 0 ∨ msgStatus m = 1 ∨ msgStatus m = 3))) := by
  cases h with
  | same hv =>
    by_cases h1 : s.status = -1
    · exact Or.inl ⟨hv, h1, if_pos h1⟩
    · exact Or.inr ⟨fun h => h1 h.2, Or.inl (if_neg h1)⟩
  | refused hg =>
    refine Or.inr ⟨fun h => ?_, Or.inl rfl⟩
    simp [runtimeGate, h.1] at hg
  | declined hg => exact Or.inr ⟨fun h => (runtimeGate_replace hg).2.1 h.1, Or.inr (Or.inl rfl)⟩
  | failed hg =>
    exact Or.inr ⟨fun h => (runtimeGate_replace hg).2.1 h.1,
      (status_makeRoom s).imp id Or.inl⟩
  | installed hg =>
    exact Or.inr ⟨fun h => (runtimeGate_replace hg).2.1 h.1,
      Or.inr (Or.inr ⟨status_installRuntime _ _ _ _ _, (runtimeGate_replace hg).2.2⟩)⟩

/-- A runtime message that is read: the branch for the stored version stores the field as it is,
every other one stores a documented status. -/
theorem statusStep_message {s : Shm} (hs : DocumentedStatus s.status) {lock : UInt64} {buf : Bytes}
    {after : Mem} {slab : Stream' Bool} (hlen : 2 ≤ buf.length)
    (ho : RuntimeOutcome { s with lock := lock } (.ofBuf buf after slab)
      (exec s (.updateRuntimeinfo lock buf after slab)).1
      (step s (.updateRuntimeinfo lock buf after slab))) :
    StatusStep s (.updateRuntimeinfo lock buf after slab) ↔
      SaneStatus s (.updateRuntimeinfo lock buf after slab) := by
  have hle := msgStatus_le (.ofBuf buf after slab)
  rcases ho.status with ⟨hv, h1, hst⟩ | ⟨hno, hst⟩
  · have hsane : SaneStatus s (.updateRuntimeinfo lock buf after slab) ↔
        msgStatus (.ofBuf buf after slab) ∈ [0, 1, 3, 65535] :=
      ⟨fun h => h hlen h1 hv.symm, fun h _ _ _ => h⟩
    have h2 : s.status ≠ 2 := by rw [show s.status = -1 from h1]; decide
    rw [hsane, ← toInt16_sane_iff hle]
    simp [StatusStep, hst, h2]
  · have hsane : SaneStatus s (.updateRuntimeinfo lock buf after slab) :=
      fun _ h1 hv => absurd ⟨hv.symm, h1⟩ hno
    refine iff_of_true ?_ hsane
    rcases hst with hst | hst | ⟨hst, hval⟩
    · exact .of_status hs (Or.inl hst)
    · exact .of_status hs (Or.inr hst)
    · have hval' := (toInt16_sane_iff hle).2 (by simp; tauto)
      exact ⟨hst ▸ hval'.1, fun _ h2 => absurd (hst.symm.trans h2) hval'.2⟩

/-- **One call**: the machine is followed exactly when the message is sane. -/
theorem statusStep_iff {s : Shm} (hs : DocumentedStatus s.status) (c : Call) :
    StatusStep s c ↔ SaneStatus s c := by
  cases c with
  | updateRuntimeinfo lock buf after slab =>
    rcases updateRuntimeinfo_cases { s with lock := lock } buf after slab with ⟨hlen, he⟩ | ⟨hlen, ho⟩
    · refine iff_of_true (.of_status hs (Or.inl (congrArg (fun r => r.2.status) he))) ?_
      intro h
      omega
    · exact statusStep_message hs hlen ho
  | updatePolicy rodata buf after slab ver =>
    exact iff_of_true (.of_status hs (Or.inl
      (diversionDecodePolicy_outcome rodata s (.ofBuf buf after slab) ver).status)) trivial
  | updateNumset buf after slab pid ver =>
    refine iff_of_true (.of_status hs (Or.inl ?_)) trivial
    rcases updateNumset_cases s buf after slab pid ver with he | ⟨-, -, hf⟩
    · exact congrArg Shm.status he
    · exact hf.status
  | updateBitvector buf after slab pid ver =>
    refine iff_of_true (.of_status hs (Or.inl ?_)) trivial
    rcases updateBitvector_cases s buf after slab pid ver with he | ⟨-, -, hf⟩
    · exact congrArg Shm.status he
    · exact hf.status
  | activePolicy ver =>
    refine iff_of_true ?_ trivial
    rcases activePolicy_cases s ver with he | ⟨h1, hv, he⟩
    · exact .of_status hs (Or.inl (congrArg (fun r => r.2.status) he))
    · have hst : (step s (.activePolicy ver)).status = 2 := congrArg (fun r => r.2.status) he
      exact ⟨by rw [hst]; simp [DocumentedStatus], fun _ _ => ⟨h1, by rw [hv]⟩⟩

theorem statusMachine_iff_always {s : Shm} (hs : DocumentedStatus s.status) (cs : List Call) :
    StatusMachine s cs ↔ Always step StatusStep s cs := by
  rw [always_iff]
  constructor
  · rintro ⟨hdoc, henter⟩ as c bs he
    refine ⟨?_, henter as c bs he⟩
    have h := hdoc (as ++ [c]) bs (by rw [he, List.append_assoc]; rfl)
    rwa [run_concat] at h
  · intro h
    refine ⟨fun as bs he => ?_, fun as c bs he => (h as c bs he).2⟩
    -- a state reached is the start or the end of a step
    rcases List.eq_nil_or_concat as with rfl | ⟨as', c, rfl⟩
    · exact hs
    · rw [List.concat_eq_append] at he ⊢
      rw [run_concat]
      exact (h as' c bs (by rw [he, List.append_assoc]; rfl)).1

/-- **The status machine** holds along a run exactly when every message that meets the
unchecked branch is sane. -/
theorem statusMachine_iff (hasBitset : Bool) (cs : List Call) :
    StatusMachine (initialState hasBitset) cs ↔ Always step SaneStatus (initialState hasBitset) cs := by
  have h0 : DocumentedStatus (initialState hasBitset).status := Or.inl rfl
  rw [statusMachine_iff_always h0]
  exact always_congr step (I := fun s => DocumentedStatus s.status)
    (fun s c hs => statusStep_iff hs c) (fun s c _ h => h.1) cs h0

/-- Six bytes, status 2 and version 0, put a fresh system into status 2. -/
theorem statusMachine_two_by_message :
    ¬ StatusMachine (initialState false)
      [.updateRuntimeinfo 0 [0, 2, 0, 0, 0, 0] (Stream'.const 0) (Stream'.const true)] := by
  intro h
  have h2 := h.2 [] _ [] rfl (by decide) (by decide)
  exact absurd h2.1 (by decide)

end NgxPlus.Diversion
