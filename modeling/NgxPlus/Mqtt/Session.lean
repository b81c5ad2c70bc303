import NgxPlus.Lib.Trace
import NgxPlus.Diversion.LuaCodec

/-!
# The session record (`lib/mqtt/mqtt.lua`)

| here | there |
| --- | --- |
| `sessionRecord`, `recordSession` | the value of `MQTT_CLIENT_TMP_DICT` (`:911`) and `decode_utf8(sessionBtyes, 2)` |
| `connect`      | `clientTmpStore:set` in `parse_message_connect` (`:905-911`); the `get` before it is only logged |
| `beginDestroy` | `destroyed = true`, `clientTmpStore:get` and the comparison in `destroy` (`:297-311`) |
| `delete`       | `clientTmpStore:delete` (`:312`) |

All sessions here have one client id; worker processes share the dictionary, and each of its
calls is one step. `parse_message_pingreq` (`:1042-1055`) reads the record and calls `destroy`
when it names another session: that is a `beginDestroy`, which may come at any time anyway.

Comparison and deletion are two steps. `latest_session_owns`: the record is the latest
session's in every run in which no session connects between the two; `older_destroy_removes_newer`
is a run in which one does.
-/

namespace NgxPlus.Mqtt

open ByteMem Decode Trace
open NgxPlus.Diversion (LuaError encodeUtf8 decodeUtf8 encodeUtf8_eq_ok decodeUtf8_write)

/-! ## The record -/

structure Session where
  worker : UInt8
  sessionId : Bytes
deriving DecidableEq, Repr

/-- `string.char(ngx.worker.id())..encode_utf8(session_id)..encode_utf8(serverId)`. -/
def sessionRecord (serverId : Bytes) (s : Session) : Except LuaError Bytes := do
  let sid ← encodeUtf8 s.sessionId
  let srv ← encodeUtf8 serverId
  return s.worker :: (sid ++ srv)

/-- `MQTT.protocol.decode_utf8(sessionBtyes, 2)`. -/
def recordSession (sessionBtyes : Bytes) : Except LuaError Bytes := do
  let (old_connect, _) ← decodeUtf8 (sessionBtyes.drop 1)
  return old_connect

theorem recordSession_sessionRecord {serverId : Bytes} {s : Session} {b : Bytes}
    (h : sessionRecord serverId s = .ok b) : recordSession b = .ok s.sessionId := by
  obtain ⟨sid, hsid, h⟩ := bind_eq_ok.1 h
  obtain ⟨srv, -, h⟩ := bind_eq_ok.1 h
  obtain ⟨hlen, rfl⟩ := encodeUtf8_eq_ok hsid
  obtain rfl := Except.ok.inj h
  simp only [recordSession, List.drop_succ_cons, List.drop_zero, decodeUtf8_write hlen]
  rfl

/-! ## The system -/

/-- Where a protocol instance is. -/
inductive Phase
  | fresh
  | connected
  /-- In `destroy`, the record was found to be its own. -/
  | deleting
  | destroyed
deriving DecidableEq, Repr

structure Clients where
  record : Option Bytes
  phase : Nat → Phase
  /-- The session whose connect came last. -/
  latest : Option Nat

inductive SessionStep
  | connect (i : Nat)
  | beginDestroy (i : Nat)
  | delete (i : Nat)
deriving DecidableEq, Repr

section

variable (serverId : Bytes) (sess : Nat → Session)

def Clients.moveTo (s : Clients) (i : Nat) (p : Phase) : Clients :=
  { s with phase := Function.update s.phase i p }

/-- `old_connect ~= nil and old_connect == self.session_id`. -/
def ownRecord (record : Option Bytes) (i : Nat) : Except LuaError Bool :=
  match record with
  | none => .ok false
  | some b => do return (← recordSession b) == (sess i).sessionId

/-- A step that is not possible leaves the state as it is, and so does a `connect` that raises;
a `destroy` that raises has set `destroyed` before. -/
def sessionStep (s : Clients) : SessionStep → Clients
  | .connect i =>
    if s.phase i = .fresh then
      match sessionRecord serverId (sess i) with
      | .ok b => { s.moveTo i .connected with record := some b, latest := some i }
      | .error _ => s
    else s
  | .beginDestroy i =>
    if s.phase i = .connected then
      match ownRecord sess s.record i with
      | .ok true => s.moveTo i .deleting
      | _ => s.moveTo i .destroyed
    else s
  | .delete i => if s.phase i = .deleting then { s.moveTo i .destroyed with record := none } else s

/-- Nobody is connected. -/
def noClients : Clients := ⟨none, fun _ => .fresh, none⟩

/-! ## The law -/

/-- While a connected session is left, the record is the latest session's unless that one is
destroyed. -/
def LatestOwns (s : Clients) : Prop :=
  (∃ i, s.phase i = .connected) → ∀ m, s.latest = some m →
    s.phase m = .destroyed ∨ ∃ b, sessionRecord serverId (sess m) = .ok b ∧ s.record = some b

/-- What holds along a run: the record is the latest session's, and a `destroy` deletes no other
session's record. -/
structure RecordLaw (cs : List SessionStep) : Prop where
  owns : ∀ pre post, cs = pre ++ post →
    LatestOwns serverId sess (run (sessionStep serverId sess) noClients pre)
  spares : ∀ pre i post, cs = pre ++ .delete i :: post →
    (run (sessionStep serverId sess) noClients pre).phase i = .deleting →
    (run (sessionStep serverId sess) noClients pre).latest = some i

/-- Nobody connects while a `destroy` is between its comparison and its deletion. -/
def Undisturbed (s : Clients) : SessionStep → Prop
  | .connect _ => ∀ j, s.phase j ≠ .deleting
  | _ => True

/-! ## Proof -/

structure SessionInv (s : Clients) : Prop where
  /-- The record, if any, is the latest session's. -/
  record : ∀ b, s.record = some b → ∃ m, s.latest = some m ∧ sessionRecord serverId (sess m) = .ok b
  /-- And it is there until that session deletes it. -/
  kept : ∀ m, s.latest = some m → s.phase m = .destroyed ∨ s.record.isSome
  deleting : ∀ j, s.phase j = .deleting → s.latest = some j

variable {serverId sess}

theorem sessionInv_noClients : SessionInv serverId sess noClients := by
  refine ⟨?_, ?_, ?_⟩
  · intro b hb
    simp [noClients] at hb
  · intro m hm
    simp [noClients] at hm
  · intro j hj
    simp [noClients] at hj

theorem SessionInv.latestOwns {s : Clients} (h : SessionInv serverId sess s) : LatestOwns serverId sess s := by
  rintro - m hm
  rcases h.kept m hm with hd | hr
  · exact Or.inl hd
  · obtain ⟨b, hb⟩ := Option.isSome_iff_exists.1 hr
    obtain ⟨m', hm', he⟩ := h.record b hb
    obtain rfl : m' = m := Option.some.inj (hm'.symm.trans hm)
    exact Or.inr ⟨b, he, hb⟩

/-- Two sessions share no id, so a record found to be one's own is of the latest session. -/
theorem SessionInv.own_iff {s : Clients} (h : SessionInv serverId sess s)
    (hinj : ∀ i j, (sess i).sessionId = (sess j).sessionId → i = j) (i : Nat) :
    (ownRecord sess s.record i = .ok true ∧ s.latest = some i ∧ s.record.isSome) ∨
    (ownRecord sess s.record i = .ok false ∧ (s.latest = some i → s.record = none)) := by
  cases hr : s.record with
  | none => exact Or.inr ⟨rfl, fun _ => rfl⟩
  | some b =>
    obtain ⟨m, hm, hb⟩ := h.record b hr
    have hown : ownRecord sess (some b) i = .ok ((sess m).sessionId == (sess i).sessionId) := by
      simp only [ownRecord, recordSession_sessionRecord hb]
      rfl
    rw [hown]
    by_cases hmi : m = i
    · subst hmi
      exact Or.inl ⟨by simp, hm, rfl⟩
    · refine Or.inr ⟨?_, fun hl => absurd (Option.some.inj (hm.symm.trans hl)) hmi⟩
      have : (sess m).sessionId ≠ (sess i).sessionId := fun he => hmi (hinj _ _ he)
      simp [this]

theorem deleting_of_moveTo {s : Clients} {i j : Nat} {p : Phase} (hp : p ≠ .deleting)
    (hj : (s.moveTo i p).phase j = .deleting) : s.phase j = .deleting := by
  by_cases hji : j = i
  · subst hji
    simp only [Clients.moveTo, Function.update_self] at hj
    exact absurd hj hp
  · simpa only [Clients.moveTo, Function.update_of_ne hji] using hj

theorem SessionInv.connect {s : Clients} (h : SessionInv serverId sess s) (i : Nat)
    (hc : Undisturbed s (.connect i)) : SessionInv serverId sess (sessionStep serverId sess s (.connect i)) := by
  simp only [sessionStep]
  split
  · cases hr : sessionRecord serverId (sess i) with
    | error e => exact h
    | ok b =>
      refine ⟨?_, fun _ _ => Or.inr rfl, ?_⟩
      · intro b' hb'
        obtain rfl := Option.some.inj hb'
        exact ⟨i, rfl, hr⟩
      · intro j hj
        exact absurd (deleting_of_moveTo (by simp) hj) (hc j)
  · exact h

theorem SessionInv.beginDestroy {s : Clients} (h : SessionInv serverId sess s)
    (hinj : ∀ i j, (sess i).sessionId = (sess j).sessionId → i = j) (i : Nat) :
    SessionInv serverId sess (sessionStep serverId sess s (.beginDestroy i)) := by
  simp only [sessionStep]
  split
  · rcases h.own_iff hinj i with ⟨ho, hl, hs⟩ | ⟨ho, hl⟩
    · rw [ho]
      refine ⟨h.record, fun _ _ => Or.inr hs, ?_⟩
      intro j hj
      by_cases hji : j = i
      · subst hji
        exact hl
      · simp only [Clients.moveTo, Function.update_of_ne hji] at hj
        exact h.deleting j hj
    · rw [ho]
      refine ⟨h.record, ?_, ?_⟩
      · intro m hm
        by_cases hmi : m = i
        · subst hmi
          exact Or.inl (by simp [Clients.moveTo])
        · simp only [Clients.moveTo, Function.update_of_ne hmi]
          exact h.kept m hm
      · intro j hj
        exact h.deleting j (deleting_of_moveTo (by simp) hj)
  · exact h

theorem SessionInv.delete {s : Clients} (h : SessionInv serverId sess s) (i : Nat) :
    SessionInv serverId sess (sessionStep serverId sess s (.delete i)) := by
  simp only [sessionStep]
  split
  · rename_i hi
    have hl := h.deleting i hi
    refine ⟨fun b hb => by simp at hb, ?_, ?_⟩
    · intro m hm
      have hlatest : s.latest = some m := hm
      obtain rfl : i = m := Option.some.inj (hl.symm.trans hlatest)
      exact Or.inl (by simp [Clients.moveTo])
    · intro j hj
      exact h.deleting j (deleting_of_moveTo (by simp) hj)
  · exact h

theorem sessionInv_step (hinj : ∀ i j, (sess i).sessionId = (sess j).sessionId → i = j)
    (s : Clients) (c : SessionStep) (h : SessionInv serverId sess s) (hc : Undisturbed s c) :
    SessionInv serverId sess (sessionStep serverId sess s c) := by
  cases c with
  | connect i => exact h.connect i hc
  | beginDestroy i => exact h.beginDestroy hinj i
  | delete i => exact h.delete i

/-- **The record belongs to the latest session**, over any number of workers, in every run in
which no session connects between the comparison and the deletion of a `destroy`. -/
theorem latest_session_owns (hinj : ∀ i j, (sess i).sessionId = (sess j).sessionId → i = j)
    {cs : List SessionStep} (h : Always (sessionStep serverId sess) Undisturbed noClients cs) :
    RecordLaw serverId sess cs := by
  have hinv : ∀ pre post, cs = pre ++ post →
      SessionInv serverId sess (run (sessionStep serverId sess) noClients pre) := by
    rintro pre post rfl
    exact run_inv _ (sessionInv_step hinj) sessionInv_noClients ((always_append _).1 h).1
  exact ⟨fun pre post he => (hinv pre post he).latestOwns,
    fun pre i post he hi => (hinv pre _ he).deleting i hi⟩

end

/-- Session `i` on worker `i % 4`. -/
def numbered (i : Nat) : Session := ⟨UInt8.ofNat (i % 4), List.replicate i 0x73⟩

/-- A session reconnects on another worker, and the old one is destroyed after that. -/
theorem latest_session_owns_reconnect :
    (run (sessionStep [0x31] numbered) noClients [.connect 1, .connect 2, .beginDestroy 1]).phase 1 =
      .destroyed ∧
    RecordLaw [0x31] numbered [.connect 1, .connect 2, .beginDestroy 1] := by
  refine ⟨by decide, latest_session_owns ?_ ?_⟩
  · intro i j h
    simpa [numbered] using congrArg List.length h
  · refine ⟨fun j => by simp [noClients], fun j => ?_, trivial, trivial⟩
    show Function.update (fun _ => Phase.fresh) 1 .connected j ≠ .deleting
    by_cases hj : j = 1
    · subst hj
      simp
    · simp [Function.update_of_ne hj]

/-- A reconnect between the comparison and the deletion loses its record. -/
theorem older_destroy_removes_newer :
    ¬ RecordLaw [0x31] numbered [.connect 1, .beginDestroy 1, .connect 2, .delete 1] := by
  intro h
  have := h.spares [.connect 1, .beginDestroy 1, .connect 2] 1 [] rfl (by decide)
  exact absurd this (by decide)

end NgxPlus.Mqtt
