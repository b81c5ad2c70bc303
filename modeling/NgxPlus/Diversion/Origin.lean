import Mathlib.Data.Set.Basic
import Mathlib.Data.List.Induction
import NgxPlus.Diversion.System

/-!
# No mixed configuration

What is served in status 2 should be one configuration: groups decoded by one
`update_policy` call for the stored version, made after that version was installed into an
empty table, and numbers that came with that message or were loaded for that version later.
`ConfiguredBy` says so of a split of the run's history.

Three calls can break it, and each is a test that the code does not make (`Coherent` is the
test): a message for the stored version stores status 2 while status is -1; a message
installed over version 0 keeps what was loaded under version 0, because freeing is under
`version > 0`; `active_policy` activates an empty table, or one that was decoded for version
0 before any version was installed. `noMixedConfiguration`: in a run in which none of them
happens, every state reached in status 2 is one configuration. `mixed_after_version_zero`
runs into the second.
-/

namespace NgxPlus.Diversion

open ByteMem Decode Trace

/-! ## Loaded numbers -/

/-- Where a number is kept. -/
inductive NumStore
  | tree (k : Nat)
  | vector

def loaded (s : Shm) : Set (NumStore × Nat) :=
  {x | match x.1 with
    | .tree k => ∃ p t, s.policys[k]? = some p ∧ p.data = .rbtree t ∧ x.2 ∈ t.keys
    | .vector => x.2 < 2 ^ 32 ∧ ∃ bv, s.globalBitvector1 = some bv ∧ utilityBitVectorGet bv x.2 = true}

/-- The vector has a bit for every 32-bit number. -/
def VectorCovers (s : Shm) : Prop := ∀ bv, s.globalBitvector1 = some bv → bv.Covers32

theorem loaded_congr {s s' : Shm} (hp : s'.policys = s.policys)
    (hb : s'.globalBitvector1 = s.globalBitvector1) : loaded s' = loaded s := by
  simp only [loaded, hp, hb]

theorem loaded_freeDiversionPolicy {s : Shm} (hc : VectorCovers s) :
    loaded (freeDiversionPolicy s) = ∅ := by
  refine Set.eq_empty_iff_forall_notMem.2 fun x hx => ?_
  obtain ⟨k | _, n⟩ := x
  · obtain ⟨p, t, hp, -⟩ := hx
    simp [freeDiversionPolicy] at hp
  · obtain ⟨hn, bv, hbv, hget⟩ := hx
    obtain ⟨bv', hbv', rfl⟩ := Option.map_eq_some_iff.1 hbv
    rw [bitVectorGet_clear (Covers32.div_lt (hc bv' hbv') hn)] at hget
    simp at hget

theorem loaded_initialState (hasBitset : Bool) : loaded (initialState hasBitset) = ∅ := by
  refine Set.eq_empty_iff_forall_notMem.2 fun x hx => ?_
  obtain ⟨k | _, n⟩ := x
  · obtain ⟨p, t, hp, -⟩ := hx
    simp [initialState, ngxHttpLuaDiversionInitSysconfZone] at hp
  · obtain ⟨hn, bv, hbv, hget⟩ := hx
    cases hasBitset with
    | false => simp [initialState, ngxHttpLuaDiversionInitSysconfZone] at hbv
    | true =>
      obtain rfl : ngxHttpLuaDiversionInitBitsetZone (fun _ => 0) = bv := Option.some.inj hbv
      rw [bitVectorGet_eq (le_of_lt (Covers32.div_lt (covers32_initBitsetZone _) hn))] at hget
      simp [ngxHttpLuaDiversionInitBitsetZone, utilityBitVectorInit] at hget

/-! ## Where a configuration comes from -/

/-- The call loads numbers for version `ver`. -/
def Call.LoadsFor (c : Call) (ver : Nat) : Prop :=
  (∃ buf after slab pid, c = .updateNumset buf after slab pid ver) ∨
  (∃ buf after slab pid, c = .updateBitvector buf after slab pid ver)

/-- A runtime message after which `ver` is stored, and another version was before. -/
def Call.InstallsVersion (c : Call) (s : Shm) (ver : Nat) : Prop :=
  (∃ lock buf after slab, c = .updateRuntimeinfo lock buf after slab) ∧
  s.version ≠ ver ∧ (step s c).version = ver

/-- The version stored at the end of the history was installed in it, and has stayed. -/
def Installed (s₀ : Shm) (cs : List Call) : Prop :=
  ∃ pre i post, cs = pre ++ i :: post ∧
    i.InstallsVersion (run step s₀ pre) (run step s₀ cs).version ∧
    ∀ as bs, post = as ++ bs → (run step s₀ (pre ++ i :: as)).version = (run step s₀ cs).version

/-- In the history `pre ++ c :: post`, the version stored after `pre` was installed in `pre`
and the table was empty then, `c` is the accepted policy message for that version, neither
version nor groups changed after it, and every number was there after `c` or was loaded for
that version later. -/
structure ConfiguredBy (s₀ : Shm) (pre : List Call) (c : Call) (post : List Call) : Prop where
  installed : Installed s₀ pre
  call : ∃ rodata buf after slab, c = .updatePolicy rodata buf after slab (run step s₀ pre).version
  accepted : (exec (run step s₀ pre) c).1 = .ok
  empty : (run step s₀ pre).policyGroup = []
  unloaded : loaded (run step s₀ pre) = ∅
  groups : (run step s₀ (pre ++ [c])).policyGroup ≠ []
  kept : ∀ as bs, post = as ++ bs →
    (run step s₀ (pre ++ c :: as)).version = (run step s₀ pre).version ∧
    (run step s₀ (pre ++ c :: as)).policyGroup = (run step s₀ (pre ++ [c])).policyGroup
  numbers : ∀ x ∈ loaded (run step s₀ (pre ++ c :: post)),
    x ∈ loaded (run step s₀ (pre ++ [c])) ∨
    ∃ as c' bs, post = as ++ c' :: bs ∧ c'.LoadsFor (run step s₀ pre).version ∧
      x ∉ loaded (run step s₀ (pre ++ c :: as)) ∧ x ∈ loaded (run step s₀ (pre ++ c :: (as ++ [c'])))

/-- The property of one state reached. -/
def OneConfiguration (s₀ : Shm) (cs : List Call) : Prop :=
  (run step s₀ cs).status = 2 → ∃ pre c post, cs = pre ++ c :: post ∧ ConfiguredBy s₀ pre c post

/-- A message that will be installed. -/
def Installs (s : Shm) (m : Dec) : Prop :=
  runtimeGate s (msgStatus m) (msgVersion m) = .replace ∧ s.lock = 0 ∧
    ∃ r, readRuntimeBody (msgBody m) = .ok r

/-- Groups are loaded, and the stored version is one that was installed. -/
def Ready (s₀ : Shm) (pre : List Call) : Prop :=
  (run step s₀ pre).policyGroup ≠ [] ∧ Installed s₀ pre

/-- The tests the code leaves out, for a call made behind the calls `pre`. -/
def Coherent (s₀ : Shm) (pre : List Call) : Call → Prop
  | .updateRuntimeinfo lock buf after slab =>
    ((run step s₀ pre).status = -1 → msgVersion (.ofBuf buf after slab) = (run step s₀ pre).version →
      msgStatus (.ofBuf buf after slab) = 2 → Ready s₀ pre) ∧
    (Installs { run step s₀ pre with lock := lock } (.ofBuf buf after slab) →
      (run step s₀ pre).version = 0 → (run step s₀ pre).policyGroup = [])
  | .activePolicy ver =>
    (run step s₀ pre).status = 1 → (run step s₀ pre).version = ver → Ready s₀ pre
  | _ => True

/-! ## One step -/

/-- What holds of a state between calls, history aside. -/
structure Sound (s : Shm) : Prop where
  active : s.status = 2 → s.policyGroup ≠ []
  unloaded : s.policyGroup = [] → loaded s = ∅
  covers : VectorCovers s

/-- The four things a step can do to a configuration; a step that enters status 2 is made
where `ready` holds. -/
inductive ConfigStep (ready : Prop) (s : Shm) (c : Call) (s' : Shm) : Prop
  | kept (hg : s'.policyGroup = s.policyGroup) (hv : s'.version = s.version)
      (hl : loaded s' = loaded s) (h2 : s'.status = 2 → s.status = 2 ∨ ready)
  | cleared (hg : s'.policyGroup = []) (hl : loaded s' = ∅) (h2 : s'.status ≠ 2)
  | decoded (hc : ∃ rodata buf after slab, c = .updatePolicy rodata buf after slab s.version)
      (hok : (exec s c).1 = .ok) (hg : s.policyGroup = []) (hg' : s'.policyGroup ≠ [])
      (hv : s'.version = s.version) (hst : s'.status = s.status)
  | numbers (hc : c.LoadsFor s.version) (hg : s'.policyGroup = s.policyGroup)
      (hv : s'.version = s.version) (hst : s'.status = s.status) (hne : s.policyGroup ≠ [])

theorem ConfigStep.of_eq {ready : Prop} {s s' : Shm} {c : Call} (h : s' = s) :
    ConfigStep ready s c s' := by
  subst h; exact .kept rfl rfl rfl Or.inl

/-- Making room clears the table, or version 0 is stored and everything stays. -/
theorem makeRoom_cases {s : Shm} (hc : VectorCovers s) :
    (s.version > 0 ∧ (makeRoom s).policyGroup = [] ∧ loaded (makeRoom s) = ∅ ∧
      (makeRoom s).status = 0) ∨
    (s.version = 0 ∧ makeRoom s = s) := by
  unfold makeRoom
  split
  · refine Or.inl ⟨‹_›, rfl, ?_, rfl⟩
    exact loaded_freeDiversionPolicy (s := { s with status := 0 }) hc
  · exact Or.inr ⟨by omega, rfl⟩

theorem toInt16_ne_two {n : Nat} (h : n = 0 ∨ n = 1 ∨ n = 3) : toInt16 n ≠ 2 := by
  rcases h with rfl | rfl | rfl <;> decide

theorem configStep_runtime {ready : Prop} {s s' : Shm} {c : Call} {m : Dec} {rc : Rc} (hs : Sound s)
    (ha : s.status = -1 → msgVersion m = s.version → msgStatus m = 2 → ready)
    (hb : Installs s m → s.version = 0 → s.policyGroup = []) (h : RuntimeOutcome s m rc s') :
    ConfigStep ready s c s' := by
  cases h with
  | same hv =>
    refine .kept rfl rfl (loaded_congr rfl rfl) fun h2 => ?_
    by_cases h1 : s.status = -1
    · have h2' : toInt16 (msgStatus m) = 2 := (if_pos h1).symm.trans h2
      refine Or.inr (ha h1 hv.symm ?_)
      have := msgStatus_le m
      simp only [toInt16] at h2'
      split at h2' <;> omega
    · exact Or.inl ((if_neg h1).symm.trans h2)
  | refused => exact .kept rfl rfl (loaded_congr rfl rfl) Or.inl
  | declined => exact .kept rfl rfl (loaded_congr rfl rfl) fun h2 => by simp at h2
  | failed =>
    have hl : loaded (freeDiversionEnvhosts (makeRoom s)) = loaded (makeRoom s) := loaded_congr rfl rfl
    rcases makeRoom_cases hs.covers with ⟨-, hg, hl', h0⟩ | ⟨-, he⟩
    · refine .cleared hg (hl.trans hl') fun h2 => ?_
      exact absurd (h0.symm.trans h2) (by decide)
    · rw [he] at hl ⊢
      exact .kept rfl rfl hl Or.inl
  | installed hg hl0 b d hbody =>
    have hst := status_installRuntime (makeRoom s) (msgStatus m) (msgVersion m) b d
    have h2 : (installRuntime (makeRoom s) (msgStatus m) (msgVersion m) b d).status ≠ 2 := by
      rw [hst]; exact toInt16_ne_two (runtimeGate_replace hg).2.2
    have hl : loaded (installRuntime (makeRoom s) (msgStatus m) (msgVersion m) b d) =
        loaded (makeRoom s) := loaded_congr rfl rfl
    have hgr : (installRuntime (makeRoom s) (msgStatus m) (msgVersion m) b d).policyGroup =
        (makeRoom s).policyGroup := rfl
    rcases makeRoom_cases hs.covers with ⟨-, hg', hl', -⟩ | ⟨hv, he⟩
    · exact .cleared (hgr.trans hg') (hl.trans hl') h2
    · have hnone := hb ⟨hg, hl0, _, hbody⟩ hv
      rw [he] at hl hgr
      exact .cleared (by rw [he, hgr, hnone]) (by rw [he, hl, hs.unloaded hnone]) h2

theorem configStep_policy {ready : Prop} {s : Shm} (hs : Sound s) (rodata : Rodata) (buf : Bytes)
    (after : Mem) (slab : Stream' Bool) (ver : Nat) :
    ConfigStep ready s (.updatePolicy rodata buf after slab ver)
      (step s (.updatePolicy rodata buf after slab ver)) := by
  have ho := diversionDecodePolicy_outcome rodata s (.ofBuf buf after slab) ver
  change PolicyOutcome s ver (exec s (.updatePolicy rodata buf after slab ver)).1
    (step s (.updatePolicy rodata buf after slab ver)) at ho
  generalize hc : Call.updatePolicy rodata buf after slab ver = c at ho ⊢
  generalize hr : step s c = s' at ho ⊢
  generalize hx : (exec s c).1 = rc at ho
  cases ho with
  | ignored => exact .of_eq rfl
  | refused => exact .of_eq rfl
  | crashed => exact .of_eq rfl
  | failed hv hg =>
    exact .cleared rfl (loaded_freeDiversionPolicy hs.covers) fun h2 => hs.active h2 hg
  | loaded hv hg t ht =>
    exact .decoded ⟨rodata, buf, after, slab, by rw [← hc, hv]⟩ hx hg ht.nonempty rfl rfl

theorem refs_nil {s : Shm} (h : s.policyGroup = []) : s.refs = [] := by simp [Shm.refs, h]

/-- Without groups there is nothing to load into. -/
theorem updateNumset_nil {s : Shm} (h : s.policyGroup = []) (buf : Bytes) (after : Mem)
    (slab : Stream' Bool) (pid ver : Nat) : (updateNumset s buf after slab pid ver).2 = s := by
  simp only [updateNumset, refs_nil h, numsetRefs]
  split_ifs <;> rfl

theorem updateBitvector_nil {s : Shm} (h : s.policyGroup = []) (buf : Bytes) (after : Mem)
    (slab : Stream' Bool) (pid ver : Nat) : (updateBitvector s buf after slab pid ver).2 = s := by
  simp only [updateBitvector, refs_nil h, bitvectorRefs]
  split_ifs <;> rfl

theorem configStep_numbers {ready : Prop} {s s' : Shm} {c : Call} {ver : Nat}
    (hc : c.LoadsFor ver) (hnil : s.policyGroup = [] → s' = s)
    (h : s' = s ∨ s.version = ver ∧ s.status = 1 ∧ SameButNumbers s s') : ConfigStep ready s c s' := by
  rcases h with h | ⟨rfl, -, hf⟩
  · exact .of_eq h
  · by_cases hg : s.policyGroup = []
    · exact .of_eq (hnil hg)
    · exact .numbers hc hf.policyGroup hf.version hf.status hg

/-- **One step** of a coherent run. -/
theorem configStep {s₀ : Shm} {pre : List Call} {c : Call} (hs : Sound (run step s₀ pre))
    (hc : Coherent s₀ pre c) :
    ConfigStep (Ready s₀ pre) (run step s₀ pre) c (step (run step s₀ pre) c) := by
  unfold Coherent at hc
  generalize run step s₀ pre = s at hs hc ⊢
  cases c with
  | updateRuntimeinfo lock buf after slab =>
    rcases updateRuntimeinfo_cases { s with lock := lock } buf after slab with ⟨-, he⟩ | ⟨-, ho⟩
    · have he' : step s (.updateRuntimeinfo lock buf after slab) = { s with lock := lock } :=
        congrArg Prod.snd he
      rw [he']
      exact .kept rfl rfl (loaded_congr rfl rfl) Or.inl
    · have hs' : Sound { s with lock := lock } :=
        ⟨hs.active, fun hg => (loaded_congr rfl rfl).trans (hs.unloaded hg), hs.covers⟩
      have hk := configStep_runtime (c := .updateRuntimeinfo lock buf after slab) hs' hc.1 hc.2 ho
      have hl : loaded { s with lock := lock } = loaded s := loaded_congr rfl rfl
      cases hk with
      | kept hg hv hl' h2 => exact .kept hg hv (hl'.trans hl) h2
      | cleared hg hl' h2 => exact .cleared hg hl' h2
      | decoded hc => obtain ⟨_, _, _, _, h⟩ := hc; simp at h
      | numbers hc => rcases hc with ⟨_, _, _, _, h⟩ | ⟨_, _, _, _, h⟩ <;> simp at h
  | updatePolicy rodata buf after slab ver => exact configStep_policy hs rodata buf after slab ver
  | updateNumset buf after slab pid ver =>
    exact configStep_numbers (Or.inl ⟨buf, after, slab, pid, rfl⟩)
      (fun hg => updateNumset_nil hg buf after slab pid ver) (updateNumset_cases s buf after slab pid ver)
  | updateBitvector buf after slab pid ver =>
    exact configStep_numbers (Or.inr ⟨buf, after, slab, pid, rfl⟩)
      (fun hg => updateBitvector_nil hg buf after slab pid ver)
      (updateBitvector_cases s buf after slab pid ver)
  | activePolicy ver =>
    rcases activePolicy_cases s ver with he | ⟨h1, hv, he⟩
    · exact .of_eq (congrArg Prod.snd he)
    · have he' : step s (.activePolicy ver) = { s with status := 2 } := congrArg Prod.snd he
      rw [he']
      exact .kept rfl rfl (loaded_congr rfl rfl) fun _ => Or.inr (hc h1 hv)

/-! ## Runs -/

theorem vectorSize_free (s : Shm) :
    (freeDiversionPolicy s).globalBitvector1.map BitVector.size = s.globalBitvector1.map BitVector.size := by
  cases h : s.globalBitvector1 <;> simp [freeDiversionPolicy, h]

theorem vectorSize_makeRoom (s : Shm) :
    (makeRoom s).globalBitvector1.map BitVector.size = s.globalBitvector1.map BitVector.size := by
  unfold makeRoom
  split
  · exact vectorSize_free { s with status := 0 }
  · rfl

theorem vectorSize_runtime {s s' : Shm} {m : Dec} {rc : Rc} (h : RuntimeOutcome s m rc s') :
    s'.globalBitvector1.map BitVector.size = s.globalBitvector1.map BitVector.size := by
  cases h with
  | same | refused | declined => rfl
  | failed => exact vectorSize_makeRoom s
  | installed => exact vectorSize_makeRoom s

theorem vectorSize_policy {s s' : Shm} {ver : Nat} {rc : Rc} (h : PolicyOutcome s ver rc s') :
    s'.globalBitvector1.map BitVector.size = s.globalBitvector1.map BitVector.size := by
  cases h with
  | ignored | refused | crashed => rfl
  | failed => exact vectorSize_free s
  | loaded _ _ _ _ hb => exact hb

/-- No call changes the size of the vector. -/
theorem vectorSize_step (s : Shm) (c : Call) :
    (step s c).globalBitvector1.map BitVector.size = s.globalBitvector1.map BitVector.size := by
  cases c with
  | updateRuntimeinfo lock buf after slab =>
    rcases updateRuntimeinfo_cases { s with lock := lock } buf after slab with ⟨-, he⟩ | ⟨-, ho⟩
    · exact congrArg (fun r => r.2.globalBitvector1.map BitVector.size) he
    · exact vectorSize_runtime (s := { s with lock := lock }) ho
  | updatePolicy rodata buf after slab ver =>
    exact vectorSize_policy (diversionDecodePolicy_outcome rodata s (.ofBuf buf after slab) ver)
  | updateNumset buf after slab pid ver =>
    rcases updateNumset_cases s buf after slab pid ver with he | ⟨-, -, hf⟩
    · exact congrArg (fun s => s.globalBitvector1.map BitVector.size) he
    · exact hf.size
  | updateBitvector buf after slab pid ver =>
    rcases updateBitvector_cases s buf after slab pid ver with he | ⟨-, -, hf⟩
    · exact congrArg (fun s => s.globalBitvector1.map BitVector.size) he
    · exact hf.size
  | activePolicy ver =>
    rcases activePolicy_cases s ver with he | ⟨-, -, he⟩ <;>
      exact congrArg (fun r => r.2.globalBitvector1.map BitVector.size) he

theorem VectorCovers.of_size {s s' : Shm} (h : VectorCovers s)
    (hs : s'.globalBitvector1.map BitVector.size = s.globalBitvector1.map BitVector.size) :
    VectorCovers s' := by
  intro bv' hbv'
  rw [hbv', Option.map_some, eq_comm, Option.map_eq_some_iff] at hs
  obtain ⟨bv, hbv, hsize⟩ := hs
  have := h bv hbv
  unfold BitVector.Covers32 at this ⊢
  omega

theorem sound_initialState (hasBitset : Bool) : Sound (initialState hasBitset) := by
  refine ⟨fun h => ?_, fun _ => loaded_initialState hasBitset, fun bv hbv => ?_⟩
  · exact absurd (show (-1 : Int) = 2 from h) (by decide)
  cases hasBitset with
  | false => simp [initialState, ngxHttpLuaDiversionInitSysconfZone] at hbv
  | true =>
    obtain rfl := Option.some.inj hbv
    exact covers32_initBitsetZone _

/-- A step that keeps the version installs nothing, and loses nothing installed. -/
theorem installed_concat {s₀ : Shm} {cs : List Call} {c : Call}
    (hv : (step (run step s₀ cs) c).version = (run step s₀ cs).version) :
    Installed s₀ (cs ++ [c]) ↔ Installed s₀ cs := by
  have hend : (run step s₀ (cs ++ [c])).version = (run step s₀ cs).version := by
    rw [run_concat, hv]
  constructor
  · rintro ⟨pre, i, post, he, hi, hkept⟩
    rw [hend] at hi hkept
    rcases List.eq_nil_or_concat post with rfl | ⟨post', d, rfl⟩
    · -- the last call would be the one that installs
      obtain ⟨rfl, hc⟩ := List.append_inj' he rfl
      obtain rfl := (List.cons.inj hc).1
      exact absurd rfl hi.2.1
    · rw [List.concat_eq_append, ← List.cons_append, ← List.append_assoc] at he
      obtain ⟨rfl, -⟩ := List.append_inj' he rfl
      refine ⟨pre, i, post', rfl, hi, fun as bs hb => hkept as (bs ++ [d]) ?_⟩
      rw [hb, List.concat_eq_append, List.append_assoc]
  · rintro ⟨pre, i, post, rfl, hi, hkept⟩
    refine ⟨pre, i, post ++ [c], by simp, by rwa [hend], fun as bs hb => ?_⟩
    rw [hend]
    rcases List.eq_nil_or_concat bs with rfl | ⟨bs', b, rfl⟩
    · rw [List.append_nil] at hb
      rw [← hb, ← hend]
      simp
    · rw [List.concat_eq_append, ← List.append_assoc] at hb
      exact hkept as bs' (List.append_inj_left' hb rfl)

/-- A step that keeps version and groups, and loads at most what it may, continues the
history of a configuration. -/
theorem ConfiguredBy.extend {s₀ : Shm} {pre post : List Call} {c c' : Call}
    (h : ConfiguredBy s₀ pre c post)
    (hv : (step (run step s₀ (pre ++ c :: post)) c').version = (run step s₀ (pre ++ c :: post)).version)
    (hg : (step (run step s₀ (pre ++ c :: post)) c').policyGroup =
      (run step s₀ (pre ++ c :: post)).policyGroup)
    (hn : loaded (step (run step s₀ (pre ++ c :: post)) c') = loaded (run step s₀ (pre ++ c :: post)) ∨
      c'.LoadsFor (run step s₀ (pre ++ c :: post)).version) :
    ConfiguredBy s₀ pre c (post ++ [c']) := by
  have hend : run step s₀ (pre ++ c :: (post ++ [c'])) = step (run step s₀ (pre ++ c :: post)) c' := by
    rw [← run_concat step, List.append_assoc, List.cons_append]
  obtain ⟨hv', hg'⟩ := h.kept post [] (List.append_nil post).symm
  refine ⟨h.installed, h.call, h.accepted, h.empty, h.unloaded, h.groups, fun as bs he => ?_,
    fun x hx => ?_⟩
  · rcases List.eq_nil_or_concat bs with rfl | ⟨bs', b, rfl⟩
    · rw [List.append_nil] at he
      rw [← he, hend, hv, hg]
      exact ⟨hv', hg'⟩
    · rw [List.concat_eq_append, ← List.append_assoc] at he
      exact h.kept as bs' (List.append_inj_left' he rfl)
  · rw [hend] at hx
    by_cases hold : x ∈ loaded (run step s₀ (pre ++ c :: post))
    · rcases h.numbers x hold with hx' | ⟨as, d, bs, rfl, hd, hno, hyes⟩
      · exact Or.inl hx'
      · exact Or.inr ⟨as, d, bs ++ [c'], by simp, hd, hno, hyes⟩
    · rcases hn with hn | hn
      · exact absurd (hn ▸ hx) hold
      · rw [hv'] at hn
        exact Or.inr ⟨post, c', [], rfl, hn, hold, by rw [hend]; exact hx⟩

/-- The invariant of coherent runs: what status 2 serves is of an installed version, and
groups loaded for an installed version have an origin. -/
structure Traced (s₀ : Shm) (cs : List Call) : Prop where
  sound : Sound (run step s₀ cs)
  installed : (run step s₀ cs).status = 2 → Installed s₀ cs
  origin : (run step s₀ cs).policyGroup ≠ [] → Installed s₀ cs →
    ∃ pre c post, cs = pre ++ c :: post ∧ ConfiguredBy s₀ pre c post

theorem Traced.step {s₀ : Shm} {cs : List Call} {c : Call} (h : Traced s₀ cs) (hc : Coherent s₀ cs c) :
    Traced s₀ (cs ++ [c]) := by
  obtain ⟨hs, hinst, horigin⟩ := h
  have hcov := hs.covers.of_size (vectorSize_step _ c)
  have hend := run_concat Diversion.step s₀ cs c
  cases configStep hs hc with
  | kept hg hv hl h2 =>
    have hready : (Diversion.step (run Diversion.step s₀ cs) c).status = 2 → Ready s₀ cs :=
      fun h => (h2 h).elim (fun h => ⟨hs.active h, hinst h⟩) id
    constructor
    · rw [hend]
      exact ⟨fun h => hg ▸ (hready h).1, fun h0 => hl.trans (hs.unloaded (hg.symm.trans h0)), hcov⟩
    · rw [hend]
      exact fun h => (installed_concat hv).2 (hready h).2
    · rw [hend]
      intro hne hi
      obtain ⟨pre, d, post, rfl, ho⟩ := horigin (fun h0 => hne (hg.trans h0)) ((installed_concat hv).1 hi)
      exact ⟨pre, d, post ++ [c], by simp, ho.extend hv hg (Or.inl hl)⟩
  | cleared hg hl h2 =>
    constructor <;> rw [hend]
    · exact ⟨fun h => absurd h h2, fun _ => hl, hcov⟩
    · exact fun h => absurd h h2
    · exact fun hne => absurd hg hne
  | decoded hcall hok hg hg' hv hst =>
    have h2 : (Diversion.step (run Diversion.step s₀ cs) c).status ≠ 2 :=
      fun h => hs.active (hst.symm.trans h) hg
    constructor
    · rw [hend]
      exact ⟨fun _ => hg', fun h0 => absurd h0 hg', hcov⟩
    · rw [hend]
      exact fun h => absurd h h2
    · intro _ hi
      refine ⟨cs, c, [], rfl, (installed_concat hv).1 hi, hcall, hok, hg, hs.unloaded hg, by rwa [hend],
        ?_, fun x hx => Or.inl hx⟩
      rintro as bs he
      obtain ⟨rfl, rfl⟩ := List.append_eq_nil_iff.1 he.symm
      exact ⟨by rw [hend, hv], rfl⟩
  | numbers hcall hg hv hst hne =>
    constructor
    · rw [hend]
      exact ⟨fun _ => hg.symm ▸ hne, fun h0 => absurd (hg.symm.trans h0) hne, hcov⟩
    · rw [hend, hst]
      exact fun h => (installed_concat hv).2 (hinst h)
    · intro _ hi
      obtain ⟨pre, d, post, rfl, ho⟩ := horigin hne ((installed_concat hv).1 hi)
      exact ⟨pre, d, post ++ [c], by simp, ho.extend hv hg (Or.inr hcall)⟩

theorem traced_run (hasBitset : Bool) (cs : List Call)
    (h : Always snoc (Coherent (initialState hasBitset)) [] cs) : Traced (initialState hasBitset) cs := by
  induction cs using List.reverseRecOn with
  | nil =>
    refine ⟨sound_initialState hasBitset, fun h2 => ?_, fun hne => absurd rfl hne⟩
    exact absurd (show (-1 : Int) = 2 from h2) (by decide)
  | append_singleton cs c ih =>
    obtain ⟨hcs, hc⟩ := always_snoc_concat.1 h
    exact (ih hcs).step hc

/-- **No mixed configuration** in a coherent run: every state reached in status 2 serves one
configuration. -/
theorem noMixedConfiguration (hasBitset : Bool) {cs : List Call}
    (h : Always snoc (Coherent (initialState hasBitset)) [] cs) (as bs : List Call) (he : cs = as ++ bs) :
    OneConfiguration (initialState hasBitset) as := by
  subst he
  intro h2
  obtain ⟨hs, hinst, horigin⟩ := traced_run hasBitset as ((always_append snoc).1 h).1
  exact horigin (hs.active h2) (hinst h2)

/-- Status 1, version 1, no strings, no hosts. -/
def runtimeMsg : Bytes := [0, 1, 0, 0, 0, 1, 0, 0, 0, 0, 0, 0, 0, 0, 0, 0]

/-- One `aidset` policy with id 1, and one group `/` that refers to it. -/
def policyMsg : Bytes :=
  [0, 1, 0, 0, 0, 1, 0, 6] ++ ascii ['a', 'i', 'd', 's', 'e', 't'] ++ [0, 0, 0, 0] ++
    [0, 1, 0, 1] ++ ascii ['/'] ++ [0, 1, 0, 0, 0, 0, 0, 1, 0, 0, 0, 1]

def sendRuntime : Call := .updateRuntimeinfo 0 runtimeMsg (Stream'.const 0) (Stream'.const true)

def sendPolicy (ver : Nat) : Call :=
  .updatePolicy (fun _ => Stream'.const 0) policyMsg (Stream'.const 0) (Stream'.const true) ver

/-- The runtime message installs its version. -/
theorem installed_sync :
    Installed (initialState true) [sendRuntime, sendPolicy 1] := by
  refine ⟨[], sendRuntime, [sendPolicy 1], rfl, ⟨⟨_, _, _, _, rfl⟩, by decide +kernel, by decide +kernel⟩, ?_⟩
  rintro as bs he
  rcases as with _ | ⟨a, as⟩
  · decide +kernel
  · obtain ⟨rfl, hnil⟩ := List.cons.inj he
    obtain ⟨rfl, rfl⟩ := List.append_eq_nil_iff.1 hnil.symm
    rfl

theorem noMixedConfiguration_sync :
    (run step (initialState true) [sendRuntime, sendPolicy 1, .activePolicy 1]).status = 2 ∧
    OneConfiguration (initialState true) [sendRuntime, sendPolicy 1, .activePolicy 1] := by
  refine ⟨by decide +kernel, noMixedConfiguration true ?_ _ [] (List.append_nil _).symm⟩
  exact ⟨⟨fun _ h => absurd h (by decide +kernel), fun _ _ => rfl⟩, trivial,
    fun _ _ => ⟨by decide +kernel, installed_sync⟩, trivial⟩

/-- A policy message sent before any version is served under version 1. -/
theorem mixed_after_version_zero :
    ¬ OneConfiguration (initialState true) [sendPolicy 0, sendRuntime, .activePolicy 1] := by
  intro h
  obtain ⟨pre, c, post, he, hc⟩ := h (by decide +kernel)
  obtain ⟨rodata, buf, after, slab, hcall⟩ := hc.call
  rcases pre with _ | ⟨p, _ | ⟨q, _ | ⟨r, pre⟩⟩⟩
  · obtain ⟨rfl, rfl⟩ := List.cons.inj he
    have hv := (hc.kept _ [] (List.append_nil _).symm).1
    exact absurd hv (by decide +kernel)
  · simp only [List.cons_append, List.nil_append, List.cons.injEq] at he
    rw [hcall] at he
    simp [sendRuntime] at he
  · simp only [List.cons_append, List.nil_append, List.cons.injEq] at he
    rw [hcall] at he
    simp at he
  · simp at he

end NgxPlus.Diversion
