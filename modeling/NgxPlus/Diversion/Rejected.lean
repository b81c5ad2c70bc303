import NgxPlus.Diversion.System

/-!
# Rejected runtime messages

Every failure of `diversion_decode_runtimeinfo` jumps to one label, and the label frees the
hosts (`.cpp:1367-1370`): a stale version is enough to take the host table away. Behind the gate, a
stored configuration of a positive version is gone before the first byte of the new one is
read. `rejected_unchanged_iff` says what is left.

`src` and `to` keep pointer and length, but their bytes lie in the hosts' pool. Once the pool was
initialised again, an allocation from it may hand their memory out (`Leaves`).
-/

namespace NgxPlus.Diversion

open ByteMem Decode

/-! ## What is served -/

structure SameServed (s s' : Shm) : Prop where
  status : s'.status = s.status
  version : s'.version = s.version
  id : s'.id = s.id
  src : s'.src = s.src
  to_ : s'.to_ = s.to_
  envhosts : s'.envhosts = s.envhosts
  policyGroup : s'.policyGroup = s.policyGroup
  numbers : s.policyGroup ≠ [] → s'.policys = s.policys ∧ s'.globalBitvector1 = s.globalBitvector1

/-! ## The hosts' pool -/

/-- `src`, `to`, `id` and the number of hosts: what is read before the first allocation. -/
def readRuntimeHead (d : Dec) : Except Rc ((Bytes × Bytes × Nat × Nat) × Dec) := do
  let (src, d) ← d.readString
  let (to_, d) ← d.readString
  let (id, d) := d.readUint32
  let (len, d) := d.readUint16
  return ((src, to_, id, len), d)

theorem readRuntimeBody_eq_head (d : Dec) :
    readRuntimeBody d = readRuntimeHead d >>= fun (h, d) => do
      let (envhosts, d) ← readEnvhosts h.2.2.2 d
      return (⟨h.1, h.2.1, h.2.2.1, envhosts⟩, d) := by
  rw [readRuntimeBody, readRuntimeHead]
  cases d.readString with
  | error e => rfl
  | ok r =>
    simp only [ok_bind]
    cases r.2.readString with
    | error e => rfl
    | ok r' => rfl

/-- The array of the hosts is allocated. -/
def HandsOut (s : Shm) (m : Dec) : Prop :=
  runtimeGate s (msgStatus m) (msgVersion m) = .replace ∧ s.lock = 0 ∧
    ∃ src to_ id len d, readRuntimeHead (msgBody m) = .ok ((src, to_, id, len), d) ∧ 0 < len ∧ d.slab.head = true

/-- There are bytes to read. -/
def NgxStr.HasBytes (a : NgxStr) : Prop := 0 < a.len ∧ a.data.isSome

/-- The same string, with whatever bytes now. -/
def NgxStr.Overlaid (a b : NgxStr) : Prop := b = a ∨ a.HasBytes ∧ b.len = a.len ∧ ∃ bs, b.data = some bs ∧ bs.length = a.len

/-- What a call may leave. `live`: `src` and `to` were stored since the pool was last initialised. -/
inductive Leaves (s : Shm) (live : Bool) (m : Dec) : Shm → Prop
  | plain : Leaves s live m (diversionDecodeRuntimeinfo s m).2
  | overlaid (h : HandsOut s m) (hd : 0 < s.version ∨ live = false) (src to_ : NgxStr)
      (hs : s.src.Overlaid src) (ht : s.to_.Overlaid to_) :
    Leaves s live m { (diversionDecodeRuntimeinfo s m).2 with src := src, to_ := to_ }

/-- Bytes that are there can be lost. -/
theorem overlaid_ne {a : NgxStr} (h : a.HasBytes) : ∃ b, a.Overlaid b ∧ b ≠ a := by
  have hov : ∀ x : UInt8, a.Overlaid ⟨a.len, some (List.replicate a.len x)⟩ := fun x =>
    Or.inr ⟨h, rfl, _, rfl, List.length_replicate⟩
  by_cases h0 : (⟨a.len, some (List.replicate a.len 0)⟩ : NgxStr) = a
  · refine ⟨_, hov 1, fun h1 => ?_⟩
    have hrep := (congrArg NgxStr.data (h0.trans h1.symm))
    obtain ⟨n, hn⟩ := Nat.exists_eq_succ_of_ne_zero h.1.ne'
    rw [hn] at hrep
    simp [List.replicate_succ] at hrep
  · exact ⟨_, hov 0, h0⟩

theorem NgxStr.Overlaid.eq {a b : NgxStr} (h : a.Overlaid b) (ha : ¬ a.HasBytes) : b = a :=
  h.resolve_right fun h => ha h.1

/-! ## One message -/

section Message

variable {s : Shm} {m : Dec}

/-- The two ways to be rejected: at the gate, or behind it. -/
theorem rejected_cases (h : (diversionDecodeRuntimeinfo s m).1 = .error) :
    (runtimeGate s (msgStatus m) (msgVersion m) = .refuse ∧
      (diversionDecodeRuntimeinfo s m).2 = freeDiversionEnvhosts s) ∨
    (runtimeGate s (msgStatus m) (msgVersion m) = .replace ∧
      (diversionDecodeRuntimeinfo s m).2 = freeDiversionEnvhosts (makeRoom s)) := by
  have ho := diversionDecodeRuntimeinfo_outcome s m
  rw [h] at ho
  generalize (diversionDecodeRuntimeinfo s m).2 = s' at ho
  cases ho with
  | refused hg => exact Or.inl ⟨hg, rfl⟩
  | failed hg => exact Or.inr ⟨hg, rfl⟩

/-- Nothing but hosts is lost at the gate. -/
theorem sameServed_freeEnvhosts_iff : SameServed s (freeDiversionEnvhosts s) ↔ s.envhosts = [] :=
  ⟨fun h => h.envhosts.symm, fun h => ⟨rfl, rfl, rfl, rfl, rfl, h.symm, rfl, fun _ => ⟨rfl, rfl⟩⟩⟩

theorem sameServed_makeRoom_iff :
    SameServed s (freeDiversionEnvhosts (makeRoom s)) ↔
      s.envhosts = [] ∧ (0 < s.version → s.status = 0 ∧ s.policyGroup = []) := by
  by_cases hv : s.version > 0
  · rw [makeRoom, if_pos hv]
    constructor
    · intro h
      exact ⟨h.envhosts.symm, fun _ => ⟨h.status.symm, h.policyGroup.symm⟩⟩
    · rintro ⟨he, h⟩
      obtain ⟨hst, hg⟩ := h hv
      exact ⟨hst.symm, rfl, rfl, rfl, rfl, he.symm, hg.symm, fun hne => absurd hg hne⟩
  · rw [makeRoom, if_neg hv, sameServed_freeEnvhosts_iff]
    exact ⟨fun h => ⟨h, fun h' => absurd h' hv⟩, fun h => h.1⟩

/-- **A rejected message changes nothing** exactly when there are no hosts, behind the gate no
configuration to tear down, and no string whose memory is handed out. -/
theorem rejected_unchanged_iff (live : Bool) (h : (diversionDecodeRuntimeinfo s m).1 = .error) :
    (∀ s', Leaves s live m s' → SameServed s s') ↔
      s.envhosts = [] ∧
      (runtimeGate s (msgStatus m) (msgVersion m) = .replace → 0 < s.version → s.status = 0 ∧ s.policyGroup = []) ∧
      (HandsOut s m → 0 < s.version ∨ live = false → ¬ s.src.HasBytes ∧ ¬ s.to_.HasBytes) := by
  have hplain : SameServed s (diversionDecodeRuntimeinfo s m).2 ↔ s.envhosts = [] ∧
      (runtimeGate s (msgStatus m) (msgVersion m) = .replace → 0 < s.version → s.status = 0 ∧ s.policyGroup = []) := by
    rcases rejected_cases h with ⟨hg, he⟩ | ⟨hg, he⟩
    · rw [he, sameServed_freeEnvhosts_iff, hg]
      simp
    · rw [he, sameServed_makeRoom_iff, hg]
      simp
  rw [← and_assoc, ← hplain]
  constructor
  · intro hall
    refine ⟨hall _ .plain, fun hout hd => ⟨fun hb => ?_, fun hb => ?_⟩⟩
    · obtain ⟨b, hov, hne⟩ := overlaid_ne hb
      exact hne (hall _ (.overlaid hout hd b s.to_ hov (Or.inl rfl))).src
    · obtain ⟨b, hov, hne⟩ := overlaid_ne hb
      exact hne (hall _ (.overlaid hout hd s.src b (Or.inl rfl) hov)).to_
  · rintro ⟨hsame, hkeep⟩ s' hs'
    cases hs' with
    | plain => exact hsame
    | overlaid hout hd src to_ hs ht =>
      obtain ⟨h1, h2⟩ := hkeep hout hd
      exact { hsame with src := hs.eq h1, to_ := ht.eq h2 }

end Message

/-- Version 2 without hosts, and with the host `a`, `b`. -/
def plainMsg : Bytes := [0, 1, 0, 0, 0, 2, 0, 0, 0, 0, 0, 0, 0, 7, 0, 0]

def hostMsg : Bytes := [0, 1, 0, 0, 0, 2, 0, 0, 0, 0, 0, 0, 0, 7, 0, 1, 0, 1, 97, 0, 1, 98]

/-- Version 1. -/
def staleMsg : Dec := .full [0, 1, 0, 0, 0, 1] (Stream'.const 0)

def installed (buf : Bytes) : Shm :=
  step (initialState false) (.updateRuntimeinfo 0 buf (Stream'.const 0) (Stream'.const true))

theorem rejected_unchanged_stale :
    SameServed (installed plainMsg) (diversionDecodeRuntimeinfo (installed plainMsg) staleMsg).2 := by
  refine (rejected_unchanged_iff true (by decide +kernel)).2 ⟨by decide +kernel, fun hg => ?_, ?_⟩ _ .plain
  · exact absurd hg (by decide +kernel)
  · rintro ⟨hg, -⟩
    exact absurd hg (by decide +kernel)

/-- A stale version takes the hosts away. -/
theorem rejected_drops_hosts :
    (diversionDecodeRuntimeinfo (installed hostMsg) staleMsg).1 = .error ∧
      ¬ ∀ s', Leaves (installed hostMsg) true staleMsg s' → SameServed (installed hostMsg) s' := by
  refine ⟨by decide +kernel, fun h => ?_⟩
  have he := (h _ .plain).envhosts
  exact absurd he (by decide +kernel)

end NgxPlus.Diversion
