import NgxPlus.Lib.Trace
import NgxPlus.Socks5.Auth

/-!
# The SOCKS5 handshake (`ngx_stream_socks5_module.c`)

| here | there |
| --- | --- |
| `Handshake`    | `ngx_stream_socks5_ctx_t`: the input side is the `Session` of the password check, `pos` and `last` are offsets from `out->start` |
| `put`          | a store into `ctx->out`; `top` is where the stores so far end |
| `ngxSocks5Send`, `answer` | `ngx_socks5_send` (`:1659-1701`); a reply site, which sets `out->last`, empties `in` and sends |
| `received`     | `ngx_stream_socks5_process_auth_handler` (`:341-538`) on what `recv` put behind the pending bytes |
| `resolved`     | `ngx_stream_socks5_resolve_handler` (`:813-909`) |
| `handler`      | one event; after the connect the handlers are those of the proxy, which only the resolver's answer gets past |

`Answers` is what the system says to the calls of one step: `c->send`, `ngx_handle_read_event`
(`armed`), and the resolver. A session that is finalized does nothing more; in the source the
function goes on with the freed session after a failed send.

`out` of the session is the list of the replies, `sent` what the client's socket has taken of
them: nothing sends the rest of a reply that was taken in part.

`never_logsIn`: with a password list, a client that follows the standard is never served. Its
greeting ends the session, and the method that was put into the reply buffer for it
(`SOCKS5_AUTH_USERPASS`) is not sent.
-/

namespace NgxPlus.Socks5

open ByteMem Trace

def socks5AuthUserpass : UInt8 := 2

def socks5CmdConnect : UInt8 := 1

def socks5Ipv4 : UInt8 := 1

def socks5Domain : UInt8 := 3

def socks5Ipv6 : UInt8 := 4

def socks5RepSucceed : UInt8 := 0

def socks5RepCmdNotSupported : UInt8 := 7

/-- `sizeof(socks5_request_t)`. -/
def sizeofRequest : Nat := 4

/-! ## Events -/

inductive Sent
  | again
  | error
  | took (n : Nat)

structure Answers where
  send : Sent
  armed : Bool
  /-- There is a resolver, and it takes the name. -/
  resolver : Bool

/-- `struct in_addr` and `in_port_t`, in network order. -/
abbrev InAddr := {b : Bytes // b.length = 4}

abbrev InPort := {b : Bytes // b.length = 2}

def inAddrAt (mem : Mem) (i : Nat) : InAddr := ⟨(mem.drop i).take 4, Stream'.length_take ..⟩

def inPortAt (mem : Mem) (i : Nat) : InPort := ⟨(mem.drop i).take 2, Stream'.length_take ..⟩

namespace Handshake

inductive Event
  | timedout
  /-- `NGX_AGAIN`. -/
  | again (armed : Bool)
  /-- The client has closed, or an error. -/
  | fail
  | data (bs : Bytes) (ans : Answers)
  /-- The first address of the name, if there is one. -/
  | resolved (addr : Option InAddr) (send : Sent)

end Handshake

/-! ## The state -/

structure Handshake extends Session where
  /-- From `out->start` on. -/
  outMem : Mem
  pos : Nat
  last : Nat
  top : Nat
  sent : Bytes
  sinAddr : InAddr
  sinPort : InPort
  /-- Names that the resolver has not answered yet. -/
  resolving : Nat
  /-- Name and port of each request to the resolver. -/
  queries : List (Bytes × InPort)
  /-- Address and port of each connect. -/
  connects : List (InAddr × InPort)
  /-- The handlers are `ngx_stream_socks5_downstream_handler`. -/
  downstream : Bool

namespace Handshake

/-- `inMem` and `outMem` are what the new buffers hold. -/
def init (inMem outMem : Mem) : Handshake where
  toSession := .init inMem
  outMem := outMem
  pos := 0
  last := 0
  top := 0
  sent := []
  sinAddr := ⟨[0, 0, 0, 0], rfl⟩
  sinPort := ⟨[0, 0], rfl⟩
  resolving := 0
  queries := []
  connects := []
  downstream := false

def put (s : Handshake) (off : Nat) (bs : Bytes) : Handshake :=
  { s with outMem := write s.outMem off bs, top := max s.top (off + bs.length) }

def finalize (s : Handshake) : Handshake := { s with closed := true }

/-- `if (ngx_handle_read_event(c->read, 0) != NGX_OK)`. -/
def rearm (s : Handshake) (armed : Bool) : Handshake := if armed then s else s.finalize

def ngxSocks5Send (s : Handshake) (send : Sent) : Handshake :=
  if s.last - s.pos = 0 then s
  else match send with
    | .again => s
    | .error => s.finalize
    | .took n =>
      let n := min n (s.last - s.pos)
      { s with pos := s.pos + n, sent := s.sent ++ (s.outMem.drop s.pos).take n }

/-- The `n` bytes at `out->pos` are the reply, `mem` is the input buffer. -/
def answer (s : Handshake) (n : Nat) (mem : Mem) (send : Sent) : Handshake :=
  ngxSocks5Send
    { s with
      last := s.pos + n
      pending := []
      behind := mem
      out := s.out ++ [(s.outMem.drop s.pos).take n] } send

def connect (s : Handshake) : Handshake :=
  if s.closed then s else { s with downstream := true, connects := s.connects ++ [(s.sinAddr, s.sinPort)] }

/-- From `in->pos` on. -/
def mem (s : Handshake) : Mem := s.pending ++ₛ s.behind

/-- Not authenticated, and two bytes are there. -/
def authenticate (passwdList : Option PasswdList) (s : Handshake) (ans : Answers) : Handshake :=
  let s := s.put (s.pos + 1) [socks5AuthUserpass]
  if s.pending.head? = some 1 then
    let r := readReq s.mem
    let res := match passwdList with
      | none => (true, [])
      | some l => authLoop l.elts r l.pairs.length 0 0
    let s := { s with authed := res.1, compared := res.2 }.put s.pos [1, if res.1 then 0x00 else 0xff]
    (s.answer 2 r.mem ans.send).rearm ans.armed
  else
    match passwdList with
    | some _ => s.finalize
    | none =>
      let s := { s with authed := true, compared := [] }.put (s.pos + 1) [0x00]
      (s.answer 2 s.mem ans.send).rearm ans.armed

/-- Authenticated, and the first bytes of a request are there. -/
def request (s : Handshake) (ans : Answers) : Handshake :=
  let mem := s.mem
  if mem.get 0 ≠ socks5Version ∨ mem.get 1 ≠ socks5CmdConnect then
    ((s.put (s.pos + 1) [socks5RepCmdNotSupported]).answer 4 mem ans.send).rearm ans.armed
  else if mem.get 3 = socks5Ipv4 then
    let addr := inAddrAt mem 4
    let port := inPortAt mem 8
    let s := ({ s with sinAddr := addr, sinPort := port }.put (s.pos + 4) addr.1).put (s.pos + 8) port.1
    ((s.answer 10 mem ans.send).rearm ans.armed).connect
  else if mem.get 3 = socks5Domain then
    if ans.resolver then
      let len := (mem.get 4).toNat
      let port := inPortAt mem (5 + len)
      { s with
        sinPort := port
        resolving := s.resolving + 1
        queries := s.queries ++ [((mem.drop 5).take len, port)]
        pending := []
        behind := mem }
    else s.finalize
  else ((s.put (s.pos + 1) [socks5RepCmdNotSupported]).answer 4 mem ans.send).rearm ans.armed

def header : Bytes := [socks5Version, socks5RepSucceed, 0, socks5Ipv4]

/-- Fewer bytes than this wait for more. -/
def minimum (s : Handshake) : Nat := if s.authed then sizeofRequest else 2

/-- `bs` has been put behind the pending bytes, and the header of a reply into `out`. -/
def arrived (s : Handshake) (bs : Bytes) : Handshake :=
  { s.put s.pos header with pending := s.pending ++ bs, behind := s.behind.drop bs.length }

def received (passwdList : Option PasswdList) (s : Handshake) (bs : Bytes) (ans : Answers) : Handshake :=
  let s := s.arrived bs
  if s.pending.length < s.minimum then s.rearm ans.armed
  else if s.authed then s.request ans
  else s.authenticate passwdList ans

/-- The address goes behind its place in the reply, the port to its own. -/
def resolved (s : Handshake) (addr : InAddr) (send : Sent) : Handshake :=
  let s := { s with sinAddr := addr, resolving := s.resolving - 1 }
  let s := (s.put (s.pos + 8) addr.1).put (s.pos + 8) s.sinPort.1
  let s := { s with last := s.pos + 10, out := s.out ++ [(s.outMem.drop s.pos).take 10] }
  (s.ngxSocks5Send send).connect

/-- What `recv` can put into the buffer. -/
def room (s : Handshake) (bs : Bytes) : Bytes := bs.take (ngxSocksAuthBufferLen - s.pending.length)

def handler (passwdList : Option PasswdList) (s : Handshake) (ev : Event) : Handshake :=
  if s.closed then s
  else match ev with
    | .resolved addr send =>
      if s.resolving = 0 then s
      else match addr with
        | none => s.finalize
        | some addr => s.resolved addr send
    | .timedout | .fail => if s.downstream then s else s.finalize
    | .again armed => if s.downstream then s else s.rearm armed
    | .data bs ans =>
      if s.downstream then s
      -- A full buffer leaves no room, and `recv` gives 0.
      else if s.room bs = [] then s.finalize
      else received passwdList s (s.room bs) ans

/-! ## The ways through the handler -/

@[simp] theorem toSession_put (s : Handshake) (off : Nat) (bs : Bytes) : (s.put off bs).toSession = s.toSession := rfl

@[simp] theorem pos_put (s : Handshake) (off : Nat) (bs : Bytes) : (s.put off bs).pos = s.pos := rfl

@[simp] theorem outMem_put (s : Handshake) (off : Nat) (bs : Bytes) :
    (s.put off bs).outMem = write s.outMem off bs := rfl

@[simp] theorem mem_put (s : Handshake) (off : Nat) (bs : Bytes) : (s.put off bs).mem = s.mem := rfl

@[simp] theorem toSession_arrived (s : Handshake) (bs : Bytes) :
    (s.arrived bs).toSession =
      { s.toSession with pending := s.pending ++ bs, behind := s.behind.drop bs.length } := rfl

@[simp] theorem pos_arrived (s : Handshake) (bs : Bytes) : (s.arrived bs).pos = s.pos := rfl

@[simp] theorem outMem_arrived (s : Handshake) (bs : Bytes) : (s.arrived bs).outMem = write s.outMem s.pos header := rfl

@[simp] theorem minimum_arrived (s : Handshake) (bs : Bytes) : (s.arrived bs).minimum = s.minimum := rfl

section Ways

variable {passwdList : Option PasswdList} {s : Handshake} {bs : Bytes} {ans : Answers}

theorem minimum_of_not_authed (h : s.authed = false) : s.minimum = 2 := by simp [minimum, h]

theorem minimum_of_authed (h : s.authed = true) : s.minimum = sizeofRequest := by simp [minimum, h]

theorem received_waits (h : (s.pending ++ bs).length < s.minimum) :
    received passwdList s bs ans = (s.arrived bs).rearm ans.armed := by
  simp only [received]
  exact if_pos h

theorem received_authenticate (hs : s.authed = false) (h : 2 ≤ (s.pending ++ bs).length) :
    received passwdList s bs ans = (s.arrived bs).authenticate passwdList ans := by
  have hmin : ¬ (s.pending ++ bs).length < s.minimum := by
    rw [minimum_of_not_authed hs]
    exact Nat.not_lt.2 h
  simp only [received]
  rw [if_neg (show ¬ (s.arrived bs).pending.length < (s.arrived bs).minimum from hmin), if_neg]
  exact fun ha => Bool.false_ne_true (hs.symm.trans ha)

theorem received_request (hs : s.authed = true) (h : sizeofRequest ≤ (s.pending ++ bs).length) :
    received passwdList s bs ans = (s.arrived bs).request ans := by
  have hmin : ¬ (s.pending ++ bs).length < s.minimum := by
    rw [minimum_of_authed hs]
    exact Nat.not_lt.2 h
  simp only [received]
  rw [if_neg (show ¬ (s.arrived bs).pending.length < (s.arrived bs).minimum from hmin)]
  exact if_pos hs

/-- With a list, any first byte but 01 ends the session. -/
theorem received_foreign {l : PasswdList} (hs : s.authed = false) (h : 2 ≤ (s.pending ++ bs).length)
    (h1 : (s.pending ++ bs).head? ≠ some 1) :
    received (some l) s bs ans = ((s.arrived bs).put (s.pos + 1) [socks5AuthUserpass]).finalize := by
  rw [received_authenticate hs h]
  simp only [authenticate]
  exact if_neg h1

theorem handler_closed (h : s.closed = true) (ev : Event) : handler passwdList s ev = s := by
  unfold handler
  exact if_pos h

theorem run_closed (h : s.closed = true) (evs : List Event) : run (handler passwdList) s evs = s := by
  induction evs with
  | nil => rfl
  | cons ev evs ih => rw [run_cons, handler_closed h, ih]

theorem handler_data (hc : s.closed = false) (hd : s.downstream = false) :
    handler passwdList s (.data bs ans) =
      if s.room bs = [] then s.finalize else received passwdList s (s.room bs) ans := by
  simp [handler, hc, hd]

/-- Of bytes that fit. -/
theorem handler_fits (hc : s.closed = false) (hd : s.downstream = false) (hbs : bs ≠ [])
    (hfit : (s.pending ++ bs).length ≤ ngxSocksAuthBufferLen) :
    handler passwdList s (.data bs ans) = received passwdList s bs ans := by
  rw [List.length_append] at hfit
  have hroom : s.room bs = bs := List.take_of_length_le (by omega)
  rw [handler_data hc hd, hroom, if_neg hbs]

end Ways

/-! ## The password check -/

theorem toSession_send {send : Sent} (h : send ≠ .error) (s : Handshake) :
    (s.ngxSocks5Send send).toSession = s.toSession := by
  unfold ngxSocks5Send
  split
  · rfl
  · cases send with
    | again => rfl
    | error => exact absurd rfl h
    | took n => rfl

theorem toSession_answer {send : Sent} (h : send ≠ .error) (s : Handshake) (n : Nat) (mem : Mem) :
    (s.answer n mem send).toSession =
      { s.toSession with
        pending := []
        behind := mem
        out := s.out ++ [(s.outMem.drop s.pos).take n] } :=
  toSession_send h _

/-- Until it is authenticated, a session is the one of the password check. -/
theorem toSession_received (passwdList : Option PasswdList) {s : Handshake} (hs : s.authed = false) (bs : Bytes)
    {ans : Answers} (hsend : ans.send ≠ .error) (harmed : ans.armed = true) :
    (received passwdList s bs ans).toSession = Socks5.received passwdList s.toSession bs := by
  by_cases hlen : (s.pending ++ bs).length < 2
  · rw [received_waits (by rwa [minimum_of_not_authed hs]), rearm, if_pos harmed]
    simp only [Socks5.received]
    rw [if_pos]
    · rfl
    · rw [hs, Bool.false_or]
      exact decide_eq_true hlen
  · rw [received_authenticate hs (Nat.not_lt.1 hlen)]
    simp only [Socks5.received]
    have hlong : ¬ (s.authed || decide ((s.pending ++ bs).length < 2)) = true := by
      rw [hs, Bool.false_or]
      exact mt of_decide_eq_true hlen
    rw [if_neg hlong]
    simp only [authenticate, rearm, harmed, if_true, toSession_put, toSession_arrived, mem_put]
    split
    · rw [toSession_answer hsend]
      cases passwdList with
      | none => simp [drop_write, take_append_of_eq, mem]
      | some l => simp [drop_write, take_append_of_eq, mem]
    · cases passwdList with
      | some l => rfl
      | none =>
        simp only
        rw [toSession_answer hsend]
        simp only [pos_put, pos_arrived, outMem_put, outMem_arrived, drop_write_add, drop_write]
        rfl

/-! ## A standard client -/

/-- `05 n methods`. -/
structure Greeting where
  methods : Bytes
  nmethods : methods.length < 256

def Greeting.bytes (g : Greeting) : Bytes := socks5Version :: UInt8.ofNat g.methods.length :: g.methods

/-- The request of an IPv4 address. -/
def connectIpv4 (addr : InAddr) (port : InPort) : Bytes :=
  [socks5Version, socks5CmdConnect, 0, socks5Ipv4] ++ addr.1 ++ port.1

/-- What a client with a pair of the list says. -/
structure Dialogue (l : PasswdList) where
  greeting : Greeting
  userpass : socks5AuthUserpass ∈ greeting.methods
  login : Message
  listed : ⟨login.user, login.pass⟩ ∈ l.pairs
  addr : InAddr
  port : InPort

/-- One message per read. -/
def Dialogue.events {l : PasswdList} (d : Dialogue l) (ans : Answers) : List Event :=
  [.data d.greeting.bytes ans, .data d.login.bytes ans, .data (connectIpv4 d.addr d.port) ans]

/-- The client is asked for its password, let in, and connected. -/
def Dialogue.LogsIn {l : PasswdList} (d : Dialogue l) (inMem outMem : Mem) (ans : Answers) : Prop :=
  let s := run (handler (some l)) (.init inMem outMem) (d.events ans)
  (∃ bound, s.out = [[socks5Version, socks5AuthUserpass], [1, 0], header ++ bound]) ∧ s.connects = [(d.addr, d.port)]

/-- A greeting ends a session with a list, without an answer. -/
theorem greeting_closes (l : PasswdList) (g : Greeting) (hg : g.methods ≠ []) (inMem outMem : Mem) (ans : Answers) :
    let s := handler (some l) (.init inMem outMem) (.data g.bytes ans)
    s.closed = true ∧ s.out = [] ∧ s.connects = [] := by
  obtain ⟨m, ms, hms⟩ := List.exists_cons_of_ne_nil hg
  have hroom : (init inMem outMem).room g.bytes =
      socks5Version :: UInt8.ofNat g.methods.length :: g.methods.take 98 := rfl
  have hlen : 2 ≤ ((init inMem outMem).pending ++ (init inMem outMem).room g.bytes).length := by
    rw [hroom]
    simp [Handshake.init, Session.init]
  have hhead : ((init inMem outMem).pending ++ (init inMem outMem).room g.bytes).head? ≠ some 1 := by
    rw [hroom]
    exact fun h => absurd (Option.some.inj h) (by decide)
  have hne : (init inMem outMem).room g.bytes ≠ [] := by
    rw [hroom]
    exact List.cons_ne_nil _ _
  rw [handler_data rfl rfl, if_neg hne, received_foreign rfl hlen hhead]
  exact ⟨rfl, rfl, rfl⟩

/-- **No standard client logs in** where there is a password list. -/
theorem never_logsIn (l : PasswdList) (d : Dialogue l) (inMem outMem : Mem) (ans : Answers) :
    ¬ d.LogsIn inMem outMem ans := by
  obtain ⟨hclosed, hout, -⟩ := greeting_closes l d.greeting (List.ne_nil_of_mem d.userpass) inMem outMem ans
  rintro ⟨⟨bound, hbound⟩, -⟩
  rw [Dialogue.events, run_cons, run_closed hclosed, hout] at hbound
  cases hbound

theorem length_tenHost : ([10, 0, 0, 1] : Bytes).length = 4 := rfl

theorem length_portBytes : ([0, 80] : Bytes).length = 2 := rfl

/-- User `a` with the password 1, to port 80 of 10.0.0.1. -/
def oneUserDialogue : Dialogue ⟨[⟨[0x61], [0x31]⟩], fun _ => ⟨[], []⟩⟩ where
  greeting := ⟨[socks5AuthUserpass], by decide⟩
  userpass := by decide
  login := ⟨[0x61], [0x31], firstUser.ulen, firstUser.plen⟩
  listed := by decide
  addr := ⟨[10, 0, 0, 1], length_tenHost⟩
  port := ⟨[0, 80], length_portBytes⟩

/-- The one user of the list is cut off by its greeting. -/
theorem oneUser_cutOff :
    ¬ ∀ (l : PasswdList), l.pairs ≠ [] → ∀ (d : Dialogue l) (inMem outMem : Mem) (ans : Answers),
      d.LogsIn inMem outMem ans := by
  intro h
  obtain ⟨⟨bound, hout⟩, -⟩ := h _ (by decide) oneUserDialogue (Stream'.const 0) (Stream'.const 0) ⟨.took 10, true, true⟩
  have hnone : (run (handler (some ⟨[⟨[0x61], [0x31]⟩], fun _ => ⟨[], []⟩⟩)) (.init (Stream'.const 0) (Stream'.const 0))
      (oneUserDialogue.events ⟨.took 10, true, true⟩)).out = [] := by
    decide +kernel
  rw [hnone] at hout
  cases hout

end Handshake

end NgxPlus.Socks5
