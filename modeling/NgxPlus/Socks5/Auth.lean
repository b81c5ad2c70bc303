import Mathlib.Order.WellFounded
import Mathlib.Tactic.Ring
import NgxPlus.Lib.ByteMem

/-!
# The password check (`ngx_stream_socks5_module.c`)

| here | there |
| --- | --- |
| `Auth`, `PasswdList`  | `ngx_stream_socks5_auth_t`; `passwd_list` and what memory behind its elements reads like |
| `strncmp`             | whether `ngx_strncmp` gives 0 |
| `readReq`             | `socks5_auth_req_t` (`ngx_socks_protocol.h:62-69`) in `ctx->in`, after the two copies (`:358-360`) |
| `authLoop`            | `:366-376` |
| `Session`             | `ngx_stream_socks5_ctx_t`, with the replies and the elements that were compared |
| `received`, `handler` | `ngx_stream_socks5_process_auth_handler` (`:289-396`) until the session is authenticated |

`plen` and `passwd` have fixed places behind the 256 bytes of `uname`, so both are copied there;
the input buffer has 100 bytes, and these places lie behind it. `in` is one stretch of memory
from its start on, which nothing else uses here.

The loop advances its pointer by the index (`auth=auth+i`), so that it compares the elements 0,
1, 3, 6 and so on (`tri`), and from three elements on it goes over the end of the list.
-/

namespace NgxPlus.Socks5

open ByteMem

/-! ## The list -/

structure Auth where
  uname : Bytes
  passwd : Bytes
deriving DecidableEq

structure PasswdList where
  pairs : List Auth
  behind : Nat → Auth

/-- `passwd_list->elts[i]`. -/
def PasswdList.elts (l : PasswdList) (i : Nat) : Auth := (l.pairs[i]?).getD (l.behind i)

/-- Of two strings of the same length. -/
def strncmp : Bytes → Bytes → Bool
  | a :: as, b :: bs => if a ≠ b then false else if a = 0 then true else strncmp as bs
  | _, _ => true

/-! ## The message -/

def ngxSocksAuthBufferLen : Nat := 100

/-- The request as it is compared, and the memory after the copies. -/
structure Req where
  uname : Bytes
  passwd : Bytes
  mem : Mem

def readReq (mem : Mem) : Req :=
  let ulen := (mem.drop 1).head.toNat
  let mem := write mem 258 ((mem.drop (2 + ulen)).take 2)
  let plen := (mem.drop 258).head.toNat
  let mem := write mem 259 ((mem.drop (3 + ulen)).take plen)
  ⟨(mem.drop 2).take ulen, (mem.drop 259).take plen, mem⟩

def Req.matches (r : Req) (auth : Auth) : Bool :=
  r.uname.length == auth.uname.length && r.passwd.length == auth.passwd.length &&
    strncmp auth.uname r.uname && strncmp auth.passwd r.passwd

/-- From the index `i` on, `n` times; whether an element matches, and which were compared. -/
def authLoop (elts : Nat → Auth) (r : Req) : Nat → Nat → Nat → Bool × List Nat
  | 0, _, _ => (false, [])
  | n + 1, i, auth =>
    if r.matches (elts (auth + i)) then (true, [auth + i])
    else
      let rest := authLoop elts r n (i + 1) (auth + i)
      (rest.1, (auth + i) :: rest.2)

/-! ## The session -/

structure Session where
  /-- From `in->pos` to `in->last`. -/
  pending : Bytes
  behind : Mem
  authed : Bool
  closed : Bool
  out : List Bytes
  compared : List Nat

def Session.init (mem : Mem) : Session := ⟨[], mem, false, false, [], []⟩

inductive Event
  | timedout
  /-- `NGX_AGAIN`. -/
  | again
  /-- The client has closed, or an error. -/
  | fail
  | data (bs : Bytes)

def socks5Version : UInt8 := 5

/-- The bytes `bs` have been put behind those that are pending. -/
def received (passwdList : Option PasswdList) (s : Session) (bs : Bytes) : Session :=
  let pending := s.pending ++ bs
  let behind := s.behind.drop bs.length
  if s.authed || pending.length < 2 then { s with pending, behind }
  else
    let reply (authed : Bool) (ver : UInt8) (mem : Mem) (compared : List Nat) : Session :=
      { s with
        pending := []
        behind := mem
        authed
        out := s.out ++ [[ver, if authed then 0x00 else 0xff]]
        compared }
    if pending.head? = some 1 then
      let r := readReq (pending ++ₛ behind)
      match passwdList with
      | none => reply true 1 r.mem []
      | some l =>
        let res := authLoop l.elts r l.pairs.length 0 0
        reply res.1 1 r.mem res.2
    else
      match passwdList with
      | some _ => { s with pending, behind, closed := true }
      | none => reply true socks5Version (pending ++ₛ behind) []

/-- One event; what an authenticated session does is not modelled. -/
def handler (passwdList : Option PasswdList) (s : Session) (ev : Event) : Session :=
  if s.closed then s
  else
    match ev with
    | .timedout | .fail => { s with closed := true }
    | .again => s
    | .data bs =>
      -- A full buffer leaves no room, and `recv` gives 0.
      let bs := bs.take (ngxSocksAuthBufferLen - s.pending.length)
      if bs = [] then { s with closed := true } else received passwdList s bs

/-! ## The loop -/

/-- The element that round `i` compares. -/
def tri (i : Nat) : Nat := i * (i + 1) / 2

theorem tri_succ (i : Nat) : tri (i + 1) = tri i + (i + 1) := by
  have h : (i + 1) * (i + 1 + 1) = i * (i + 1) + 2 * (i + 1) := by ring
  rw [tri, tri, h]
  omega

theorem tri_strictMono : StrictMono tri := strictMono_nat_of_lt_succ fun i => by
  rw [tri_succ]
  omega

section Loop

variable (elts : Nat → Auth) (r : Req)

theorem authLoop_fst (n : Nat) {i auth : Nat} (h : auth + i = tri i) :
    (authLoop elts r n i auth).1 = true ↔ ∃ j, i ≤ j ∧ j < i + n ∧ r.matches (elts (tri j)) = true := by
  induction n generalizing i auth with
  | zero =>
    simp only [authLoop, Bool.false_eq_true, false_iff]
    rintro ⟨j, h1, h2, -⟩
    omega
  | succ n ih =>
    rw [authLoop, h]
    split
    · rename_i hm
      exact ⟨fun _ => ⟨i, le_rfl, by omega, hm⟩, fun _ => rfl⟩
    · rename_i hm
      rw [ih (by rw [tri_succ])]
      constructor
      · rintro ⟨j, h1, h2, hj⟩
        exact ⟨j, by omega, by omega, hj⟩
      · rintro ⟨j, h1, h2, hj⟩
        have hne : j ≠ i := fun e => hm (by rw [← e, hj])
        exact ⟨j, by omega, by omega, hj⟩

/-- Every element is compared until one matches. -/
theorem mem_authLoop_snd (n : Nat) {i auth x : Nat} (h : auth + i = tri i) :
    x ∈ (authLoop elts r n i auth).2 ↔
      ∃ j, i ≤ j ∧ j < i + n ∧ x = tri j ∧ ∀ k, i ≤ k → k < j → r.matches (elts (tri k)) = false := by
  induction n generalizing i auth with
  | zero =>
    simp only [authLoop, List.not_mem_nil, false_iff]
    rintro ⟨j, h1, h2, -⟩
    omega
  | succ n ih =>
    rw [authLoop, h]
    split
    · rename_i hm
      rw [List.mem_singleton]
      constructor
      · rintro rfl
        exact ⟨i, le_rfl, by omega, rfl, fun k h1 h2 => by omega⟩
      · rintro ⟨j, h1, h2, rfl, hk⟩
        rcases Nat.lt_or_eq_of_le h1 with hlt | rfl
        · rw [hk i le_rfl hlt] at hm
          cases hm
        · rfl
    · rename_i hm
      rw [List.mem_cons, ih (by rw [tri_succ])]
      constructor
      · rintro (rfl | ⟨j, h1, h2, rfl, hk⟩)
        · exact ⟨i, le_rfl, by omega, rfl, fun k h1 h2 => by omega⟩
        · refine ⟨j, by omega, by omega, rfl, fun k h1 h2 => ?_⟩
          rcases Nat.lt_or_eq_of_le h1 with hlt | rfl
          · exact hk k hlt h2
          · exact Bool.eq_false_of_not_eq_true hm
      · rintro ⟨j, h1, h2, rfl, hk⟩
        rcases Nat.lt_or_eq_of_le h1 with hlt | rfl
        · exact Or.inr ⟨j, hlt, by omega, rfl, fun k h1 h2 => hk k (by omega) h2⟩
        · exact Or.inl rfl

end Loop

/-! ## The comparison -/

theorem strncmp_eq_true {a b : Bytes} (hlen : a.length = b.length) (h0 : 0 ∉ a) : strncmp a b = true ↔ a = b := by
  induction a generalizing b with
  | nil =>
    obtain rfl := List.length_eq_zero_iff.1 hlen.symm
    simp [strncmp]
  | cons x a ih =>
    cases b with
    | nil => simp at hlen
    | cons y b =>
      have hx : x ≠ 0 := fun e => h0 (by rw [e]; exact List.mem_cons_self)
      rw [strncmp, List.cons.injEq]
      by_cases hxy : x = y
      · rw [if_neg (not_not.2 hxy), if_neg hx, ih (by simpa using hlen) fun h => h0 (List.mem_cons_of_mem _ h)]
        exact ⟨fun h => ⟨hxy, h⟩, fun h => h.2⟩
      · rw [if_pos hxy]
        exact ⟨fun h => absurd h (by decide), fun h => absurd h.1 hxy⟩

/-- Without NUL bytes the comparison is equality. -/
theorem Req.matches_iff {r : Req} {a : Auth} (hu : 0 ∉ a.uname) (hp : 0 ∉ a.passwd) :
    r.matches a = true ↔ a = ⟨r.uname, r.passwd⟩ := by
  simp only [Req.matches, Bool.and_eq_true, beq_iff_eq]
  constructor
  · rintro ⟨⟨⟨h1, h2⟩, h3⟩, h4⟩
    rw [strncmp_eq_true h1.symm hu] at h3
    rw [strncmp_eq_true h2.symm hp] at h4
    cases a
    exact congrArg₂ Auth.mk h3 h4
  · rintro rfl
    exact ⟨⟨⟨rfl, rfl⟩, (strncmp_eq_true rfl hu).2 rfl⟩, (strncmp_eq_true rfl hp).2 rfl⟩

/-! ## A complete message -/

structure Message where
  user : Bytes
  pass : Bytes
  ulen : user.length < 256
  plen : pass.length < 256

/-- `01 ulen user plen pass`. -/
def Message.bytes (m : Message) : Bytes :=
  1 :: UInt8.ofNat m.user.length :: (m.user ++ (UInt8.ofNat m.pass.length :: m.pass))

theorem readReq_bytes (m : Message) (hfit : m.bytes.length ≤ ngxSocksAuthBufferLen) (behind : Mem) :
    (readReq (m.bytes ++ₛ behind)).uname = m.user ∧ (readReq (m.bytes ++ₛ behind)).passwd = m.pass := by
  have hlen : m.bytes.length = 3 + m.user.length + m.pass.length := by
    simp [Message.bytes]
    omega
  rw [hlen, ngxSocksAuthBufferLen] at hfit
  have hu : (UInt8.ofNat m.user.length).toNat = m.user.length := by
    rw [UInt8.toNat_ofNat', Nat.mod_eq_of_lt m.ulen]
  have hp : (UInt8.ofNat m.pass.length).toNat = m.pass.length := by
    rw [UInt8.toNat_ofNat', Nat.mod_eq_of_lt m.plen]
  generalize hmem : m.bytes ++ₛ behind = mem
  -- What the copies read.
  have h1 : (mem.drop 1).head = UInt8.ofNat m.user.length := by rw [← hmem]; rfl
  have h2 : mem.drop 2 = m.user ++ₛ ((UInt8.ofNat m.pass.length :: m.pass) ++ₛ behind) := by
    rw [← hmem, ← Stream'.append_append_stream]
    rfl
  have h3 : mem.drop (2 + m.user.length) = (UInt8.ofNat m.pass.length :: m.pass) ++ₛ behind := by
    rw [← Stream'.drop_drop, h2, drop_append_of_eq _ _ rfl]
  have h4 : mem.drop (3 + m.user.length) = m.pass ++ₛ behind := by
    rw [show 3 + m.user.length = 2 + m.user.length + 1 by omega, ← Stream'.drop_drop, h3]
    rfl
  have hplen (x : Bytes) (mem' : Mem) (hx : x = (mem.drop (2 + m.user.length)).take 2) :
      (x ++ₛ mem').head = UInt8.ofNat m.pass.length := by
    rw [hx, h3]
    rfl
  -- What they leave.
  have hmem1 : ((write mem 258 ((mem.drop (2 + m.user.length)).take 2)).drop 258).head = UInt8.ofNat m.pass.length := by
    rw [drop_write]
    exact hplen _ _ rfl
  have hpass : ((write mem 258 ((mem.drop (2 + m.user.length)).take 2)).drop (3 + m.user.length)).take m.pass.length =
      m.pass := by
    rw [take_drop_write _ _ (by omega), h4, take_append_of_eq _ _ rfl]
  rw [readReq]
  simp only [h1, hu, hmem1, hp, hpass]
  constructor
  · rw [take_drop_write _ _ (by omega), take_drop_write _ _ (by omega), h2, take_append_of_eq _ _ rfl]
  · rw [drop_write, take_append_of_eq _ _ rfl]

theorem Message.length_bytes (m : Message) : m.bytes.length = 3 + m.user.length + m.pass.length := by
  simp [Message.bytes]
  omega

/-- A complete message goes through the loop. -/
theorem received_message (l : PasswdList) {s : Session} (hs : s.authed = false) {bs rest : Bytes} {m : Message}
    (hmsg : s.pending ++ bs = m.bytes ++ rest) (hfit : (s.pending ++ bs).length ≤ ngxSocksAuthBufferLen) :
    ∃ r : Req, r.uname = m.user ∧ r.passwd = m.pass ∧
      received (some l) s bs =
        { s with
          pending := []
          behind := r.mem
          authed := (authLoop l.elts r l.pairs.length 0 0).1
          out := s.out ++ [[1, if (authLoop l.elts r l.pairs.length 0 0).1 then 0x00 else 0xff]]
          compared := (authLoop l.elts r l.pairs.length 0 0).2 } := by
  have hle : m.bytes.length ≤ ngxSocksAuthBufferLen := by
    rw [hmsg, List.length_append] at hfit
    omega
  obtain ⟨hu, hp⟩ := readReq_bytes m hle (rest ++ₛ s.behind.drop bs.length)
  have hlen : ¬ (m.bytes ++ rest).length < 2 := by
    rw [List.length_append, m.length_bytes]
    omega
  have hhead : (m.bytes ++ rest).head? = some 1 := rfl
  refine ⟨readReq (m.bytes ++ₛ (rest ++ₛ s.behind.drop bs.length)), hu, hp, ?_⟩
  rw [received]
  simp only [hs, hmsg, Bool.false_or, decide_eq_true_eq, if_neg hlen, if_pos hhead, Stream'.append_append_stream]

theorem handler_message {passwdList : Option PasswdList} {s : Session} (hc : s.closed = false) {bs : Bytes} (hbs : bs ≠ [])
    (hfit : (s.pending ++ bs).length ≤ ngxSocksAuthBufferLen) :
    handler passwdList s (.data bs) = received passwdList s bs := by
  rw [List.length_append] at hfit
  have htake : bs.take (ngxSocksAuthBufferLen - s.pending.length) = bs := List.take_of_length_le (by omega)
  rw [handler]
  simp only [hc, Bool.false_eq_true, if_false, htake, if_neg hbs]

/-! ## The check -/

/-- A list whose strings have no NUL bytes. -/
def PasswdList.Clean (l : PasswdList) : Prop := ∀ a ∈ l.pairs, 0 ∉ a.uname ∧ 0 ∉ a.passwd

/-- The message is checked against the list: `s'` is the session after it. -/
def Checks (l : PasswdList) (m : Message) (s s' : Session) : Prop :=
  (s'.authed = true ↔ ⟨m.user, m.pass⟩ ∈ l.pairs) ∧ (∀ i ∈ s'.compared, i < l.pairs.length) ∧
    s'.out = s.out ++ [if s'.authed then [0x01, 0x00] else [0x01, 0xff]]

/-- The pair at one of the places that are compared. -/
def AtTri (l : PasswdList) (a : Auth) : Prop := ∃ j, l.pairs[tri j]? = some a

section Check

variable {l : PasswdList} (hl : l.Clean)
include hl

/-- Inside the list, the loop finds the pair. -/
theorem matches_elts_iff {r : Req} {i : Nat} (hi : i < l.pairs.length) :
    r.matches (l.elts i) = true ↔ l.pairs[i]? = some ⟨r.uname, r.passwd⟩ := by
  have hget : l.pairs[i]? = some l.pairs[i] := List.getElem?_eq_getElem hi
  obtain ⟨hu, hp⟩ := hl _ (List.getElem_mem hi)
  rw [PasswdList.elts, hget, Option.getD_some, Req.matches_iff hu hp, Option.some.injEq]

/-- A pair at a place that is compared ends the loop inside the list. -/
theorem authLoop_of_atTri {r : Req} (h : AtTri l ⟨r.uname, r.passwd⟩) :
    (authLoop l.elts r l.pairs.length 0 0).1 = true ∧
      ∀ i ∈ (authLoop l.elts r l.pairs.length 0 0).2, i < l.pairs.length := by
  obtain ⟨j, hj⟩ := h
  obtain ⟨hlt, -⟩ := List.getElem?_eq_some_iff.1 hj
  have hjn : j < l.pairs.length := lt_of_le_of_lt (tri_strictMono.le_apply) hlt
  have hm := (matches_elts_iff hl hlt).2 hj
  refine ⟨(authLoop_fst l.elts r _ rfl).2 ⟨j, Nat.zero_le j, by omega, hm⟩, fun i hi => ?_⟩
  obtain ⟨k, -, -, rfl, hk⟩ := (mem_authLoop_snd l.elts r _ rfl).1 hi
  have hkj : k ≤ j := by
    by_contra hlt
    rw [hk j (Nat.zero_le j) (by omega)] at hm
    cases hm
  exact lt_of_le_of_lt (tri_strictMono.monotone hkj) hlt

/-- Otherwise, from three pairs on, it goes over the end. -/
theorem authLoop_over_end {r : Req} (h : ¬ AtTri l ⟨r.uname, r.passwd⟩) (h3 : 3 ≤ l.pairs.length) :
    ∃ i ∈ (authLoop l.elts r l.pairs.length 0 0).2, l.pairs.length ≤ i := by
  have hex : ∃ j, l.pairs.length ≤ tri j := ⟨l.pairs.length, tri_strictMono.le_apply⟩
  classical
  have hle := Nat.find_spec hex
  have hmin : ∀ k < Nat.find hex, tri k < l.pairs.length := fun k hk => not_le.1 (Nat.find_min hex hk)
  have hlt : Nat.find hex < l.pairs.length := by
    -- `tri (n - 1)` is at least `n`.
    refine lt_of_le_of_lt (Nat.find_min' hex (m := l.pairs.length - 1) ?_) (by omega)
    obtain ⟨n, hn⟩ : ∃ n, l.pairs.length = n + 3 := ⟨l.pairs.length - 3, by omega⟩
    have := tri_strictMono.le_apply (x := n + 1)
    rw [hn, show n + 3 - 1 = n + 1 + 1 by omega, tri_succ]
    omega
  refine ⟨tri (Nat.find hex), (mem_authLoop_snd l.elts r _ rfl).2 ⟨_, Nat.zero_le _, by omega, rfl, fun k _ hk => ?_⟩, hle⟩
  refine Bool.eq_false_of_not_eq_true fun hm => h ⟨k, ?_⟩
  exact (matches_elts_iff hl (hmin k hk)).1 hm

/-- With one or two pairs every place is compared, and no other. -/
theorem authLoop_short {r : Req} (h2 : l.pairs.length ≤ 2) :
    ((authLoop l.elts r l.pairs.length 0 0).1 = true ↔ ⟨r.uname, r.passwd⟩ ∈ l.pairs) ∧
      ∀ i ∈ (authLoop l.elts r l.pairs.length 0 0).2, i < l.pairs.length := by
  have htri : ∀ j < l.pairs.length, tri j = j := by
    intro j hj
    have h : j = 0 ∨ j = 1 := by omega
    rcases h with rfl | rfl <;> rfl
  constructor
  · rw [authLoop_fst l.elts r _ rfl, List.mem_iff_getElem?]
    constructor
    · rintro ⟨j, -, hj, hm⟩
      rw [Nat.zero_add] at hj
      rw [htri j hj, matches_elts_iff hl hj] at hm
      exact ⟨j, hm⟩
    · rintro ⟨j, hj⟩
      obtain ⟨hlt, -⟩ := List.getElem?_eq_some_iff.1 hj
      refine ⟨j, Nat.zero_le j, by omega, ?_⟩
      rw [htri j hlt, matches_elts_iff hl hlt]
      exact hj
  · intro i hi
    obtain ⟨j, -, hj, rfl, -⟩ := (mem_authLoop_snd l.elts r _ rfl).1 hi
    rw [htri j (by omega)]
    omega

theorem password_check_iff {s : Session} (hs : s.authed = false) (hc : s.closed = false) {bs rest : Bytes} (hbs : bs ≠ [])
    {m : Message} (hmsg : s.pending ++ bs = m.bytes ++ rest)
    (hfit : (s.pending ++ bs).length ≤ ngxSocksAuthBufferLen) :
    Checks l m s (handler (some l) s (.data bs)) ↔ l.pairs.length ≤ 2 ∨ AtTri l ⟨m.user, m.pass⟩ := by
  obtain ⟨r, hu, hp, hr⟩ := received_message l hs hmsg hfit
  rw [handler_message hc hbs hfit, hr, ← hu, ← hp]
  have hout (b : Bool) : s.out ++ [[1, if b then 0x00 else 0xff]] = s.out ++ [if b then [0x01, 0x00] else [0x01, 0xff]] := by
    cases b <;> rfl
  simp only [Checks, hu, hp, hout, and_true]
  rw [← hu, ← hp]
  constructor
  · rintro ⟨-, hin⟩
    by_contra hno
    rw [not_or, not_le] at hno
    obtain ⟨i, hi, hle⟩ := authLoop_over_end hl hno.2 hno.1
    exact absurd (hin i hi) (not_lt.2 hle)
  · rintro (h2 | htri)
    · exact authLoop_short hl h2
    · obtain ⟨h1, h2⟩ := authLoop_of_atTri hl htri
      obtain ⟨j, hj⟩ := htri
      exact ⟨⟨fun _ => List.mem_of_getElem? hj, fun _ => h1⟩, h2⟩

end Check

/-- Users `a`, `b` and `c` with the passwords 1, 2 and 3; behind the list lies nothing that matches. -/
def threeUsers : PasswdList := ⟨[⟨[0x61], [0x31]⟩, ⟨[0x62], [0x32]⟩, ⟨[0x63], [0x33]⟩], fun _ => ⟨[], []⟩⟩

def firstUser : Message := ⟨[0x61], [0x31], by decide, by decide⟩

def thirdUser : Message := ⟨[0x63], [0x33], by decide, by decide⟩

theorem clean_threeUsers : threeUsers.Clean := by
  intro a ha
  simp only [threeUsers, List.mem_cons, List.not_mem_nil, or_false] at ha
  rcases ha with rfl | rfl | rfl <;> decide

theorem password_check_firstUser :
    Checks threeUsers firstUser (.init (Stream'.const 0))
      (handler (some threeUsers) (.init (Stream'.const 0)) (.data firstUser.bytes)) :=
  (password_check_iff clean_threeUsers (s := .init (Stream'.const 0)) (m := firstUser) rfl rfl (by decide)
    (show [] ++ firstUser.bytes = firstUser.bytes ++ [] from rfl) (by decide)).2 (Or.inr ⟨0, rfl⟩)

/-- The third user is refused, after a look behind the list. -/
theorem password_check_thirdUser :
    (handler (some threeUsers) (.init (Stream'.const 0)) (.data thirdUser.bytes)).authed = false ∧
      ¬ Checks threeUsers thirdUser (.init (Stream'.const 0))
        (handler (some threeUsers) (.init (Stream'.const 0)) (.data thirdUser.bytes)) := by
  have hauthed : (handler (some threeUsers) (.init (Stream'.const 0)) (.data thirdUser.bytes)).authed = false := by
    decide +kernel
  have hcompared : (handler (some threeUsers) (.init (Stream'.const 0)) (.data thirdUser.bytes)).compared = [0, 1, 3] := by
    decide +kernel
  refine ⟨hauthed, ?_⟩
  rintro ⟨-, hin, -⟩
  rw [hcompared] at hin
  exact absurd (hin 3 (by decide)) (by decide)

end NgxPlus.Socks5
