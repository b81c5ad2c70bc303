import NgxPlus.Lib.Segments
import NgxPlus.Lib.Trace

/-!
# The SOCKS5 relay (`ngx_stream_socks5_process`)

| here | there |
| --- | --- |
| `Buf`, `Pool`          | `ngx_buf_t`, positions counted from `b->start`; the bufs behind `u->free`, for both directions |
| `Flow`                 | `src->read`, `b`, `*out`, `*busy`, the saved chain of the write filter and `dst->write` |
| `ngxUnixRecv`          | `ngx_unix_recv` (`ngx_recv.c:14-167`) |
| `ngxOutputChainToIovec`, `ngxWritevChain` | `ngx_writev_chain.c:108-178`, `:14-104` |
| `ngxChainUpdateSent`   | `ngx_buf.c:271-313` |
| `ngxStreamWriteFilter` | `ngx_stream_write_filter_module.c:53-264` |
| `ngxChainGetFreeBuf`, `ngxChainUpdateChains` | `ngx_buf.c:156-222` |
| `writeOut`, `receive`, `processLoop`, `finish` | the halves of the loop of `process`, the loop, what is behind it |
| `process`              | `ngx_stream_socks5_process` (`ngx_stream_socks5_module.c:1077-1293`) |
| `processConnection`    | `ngx_stream_socks5_process_connection` (`:929-1010`) |
| `initUpstream`, `nextUpstream` | `:679-802`, `:1297-1346` |

A `Flow` is what `ngx_stream_socks5_process` picks for one value of `from_upstream`. `c->send_chain`
is `ngx_writev_chain`; `ngx_linux_sendfile_chain`, which has a lower limit and goes on after a short
`writev` until `EAGAIN`, is left out. Nothing sets `u->peer.tries`, so a failed connect ends the
session.

The kernel's side of a connection is `stream`, everything the peer has sent so far, of which
`taken` bytes were received, and `sent`, the bytes that `writev` took. What a system call does is
in `Env`: how much it takes or gives, or `EAGAIN`, or an error; calls behind the end of a list
would block. `recv` gives nothing behind the end of the stream (`fin`).

A buf without data (`n` was 0) has no address range and is `flush`. The session of a datagram
socket, the preread buffer `c->buffer` and the timers are left out: a time-out may come at any time.
-/

namespace NgxPlus.Socks5.Relay

open ByteMem

/-! ## Bufs and chains -/

structure Buf where
  pos : Nat
  last : Nat
  temporary : Bool
  lastBuf : Bool
  flush : Bool
deriving DecidableEq, Repr

/-- `ngx_buf_size`; the file positions are 0. -/
def Buf.size (b : Buf) : Nat := if b.temporary then b.last - b.pos else 0

/-- `ngx_buf_special`. -/
def Buf.special (b : Buf) : Bool := (b.flush || b.lastBuf) && !b.temporary

/-- A chain is the list of the bufs its links point to. -/
abbrev Chain := List Nat

structure Pool where
  bufs : Nat → Buf
  free : Chain
  /-- Bufs from here on are not allocated yet. -/
  fresh : Nat

/-- `ngx_chain_update_sent`. -/
def ngxChainUpdateSent (bufs : Nat → Buf) : Chain → Nat → (Nat → Buf) × Chain
  | [], _ => (bufs, [])
  | i :: inn, sent =>
    let b := bufs i
    if b.special then ngxChainUpdateSent bufs inn sent
    else if sent = 0 then (bufs, i :: inn)
    else if b.size ≤ sent then
      let b' := if b.temporary then { b with pos := b.last } else b
      ngxChainUpdateSent (Function.update bufs i b') inn (sent - b.size)
    else
      let b' := if b.temporary then { b with pos := b.pos + sent } else b
      (Function.update bufs i b', i :: inn)

def ngxIovsPreallocate : Nat := 64

/-- `ngx_output_chain_to_iovec`: the vector so far as pairs of base and length, the end of the
last one, and the total. `none` is "bad buf in output chain". -/
def ngxOutputChainToIovec (limit : Nat) (bufs : Nat → Buf) :
    Chain → List (Nat × Nat) → Option Nat → Nat → Option (List (Nat × Nat) × Nat)
  | [], iovs, _, total => some (iovs, total)
  | i :: inn, iovs, prev, total =>
    let b := bufs i
    if limit ≤ total then some (iovs, total)
    else if b.special then ngxOutputChainToIovec limit bufs inn iovs prev total
    else if !b.temporary then none
    else
      let size := min (b.last - b.pos) (limit - total)
      if prev = some b.pos then
        let grown := iovs.dropLast ++ (iovs.getLast?.map fun iov => (iov.1, iov.2 + size)).toList
        ngxOutputChainToIovec limit bufs inn grown (some (b.pos + size)) (total + size)
      else if iovs.length = ngxIovsPreallocate then some (iovs, total)
      else ngxOutputChainToIovec limit bufs inn (iovs ++ [(b.pos, size)]) (some (b.pos + size)) (total + size)

/-- What a vector points to. -/
def gathered (mem : Mem) (iovs : List (Nat × Nat)) : Bytes :=
  iovs.flatMap fun iov => seg mem iov.1 (iov.1 + iov.2)

/-! ## The kernel -/

inductive WriteAnswer
  | took (n : Nat)
  | again
  | error
deriving DecidableEq, Repr

inductive RecvAnswer
  /-- At most `n` bytes (one at least); whether `rev->ready` stays set depends on the event method. -/
  | gave (n : Nat) (ready : Bool)
  | again
  | error
deriving DecidableEq, Repr

/-- What the system calls do while one event is handled. -/
structure Env where
  now : Int
  recvs : List RecvAnswer
  writes : List WriteAnswer
  /-- There is memory for a new buf. -/
  alloc : Bool
  /-- `ngx_handle_read_event` and `ngx_handle_write_event` succeed. -/
  armed : Bool

/-! ## One direction -/

inductive Alert
  /-- "zero size buf in writer" -/
  | zeroSizeBuf
  /-- "bad buf in output chain" -/
  | badBuf
  /-- "the stream output chain is empty" -/
  | emptyChain
deriving DecidableEq, Repr

structure Flow where
  /-- `src->read`. -/
  ready : Bool
  eof : Bool
  error : Bool
  delayed : Bool
  stream : Bytes
  taken : Nat
  fin : Bool
  /-- `*received`. -/
  received : Nat
  /-- From `b->start` on. -/
  mem : Mem
  /-- `b->last`. -/
  last : Nat
  out : Chain
  busy : Chain
  /-- `ctx->from_upstream` or `ctx->from_downstream` of the write filter. -/
  saved : Chain
  /-- `dst->write->ready`. -/
  writeReady : Bool
  /-- `NGX_STREAM_WRITE_BUFFERED` in `dst->buffered`. -/
  buffered : Bool
  /-- `dst->error`. -/
  failed : Bool
  sent : Bytes
  alerts : List Alert

structure Conf where
  bufferSize : Nat
  uploadRate : Nat
  downloadRate : Nat
  /-- The bytes that one call of `c->send_chain` sends at most. -/
  limit : Nat

inductive Rc
  | ok
  | again
  | error
deriving DecidableEq, Repr

/-- How the session was finalized. -/
inductive Closed
  /-- `NGX_STREAM_OK` behind "disconnected"; the value of `from_upstream`. -/
  | disconnected (fromUpstream : Bool)
  /-- `NGX_STREAM_OK` because `dst` cannot be written to. -/
  | writeError
  /-- `NGX_STREAM_OK` behind "connection timed out". -/
  | timedOut
  /-- `NGX_STREAM_INTERNAL_SERVER_ERROR`. -/
  | internalServerError
  /-- `NGX_STREAM_BAD_GATEWAY`. -/
  | badGateway
deriving DecidableEq, Repr

/-- `ngx_unix_recv(c, buf, size)`: what it stored, or nothing behind `NGX_AGAIN` and `NGX_ERROR`. -/
def ngxUnixRecv (f : Flow) (size : Nat) : RecvAnswer → Flow × Rc × Bytes
  | .again => ({ f with ready := false }, .again, [])
  | .error => ({ f with ready := false, error := true }, .error, [])
  | .gave n ready =>
    match f.stream.drop f.taken with
    | [] =>
      if f.fin then ({ f with ready := false, eof := true }, .ok, [])
      else ({ f with ready := false }, .again, [])
    | b :: bs =>
      let got := (b :: bs).take (min (max 1 n) size)
      ({ f with ready := ready, taken := f.taken + got.length }, .ok, got)

/-- Of `size` bytes. -/
def WriteAnswer.accepted (size : Nat) : WriteAnswer → Nat
  | .took n => min n size
  | _ => 0

/-- `ngx_writev_chain(c, in, 0)`; `none` is `NGX_CHAIN_ERROR`. `send` is the local variable. -/
def ngxWritevChain (conf : Conf) : List WriteAnswer → (Nat → Buf) → Flow → Chain → Nat →
    (Nat → Buf) × Flow × Option Chain × List WriteAnswer
  | answers, bufs, f, inn, send =>
    match ngxOutputChainToIovec (conf.limit - send) bufs inn [] none 0 with
    | none => (bufs, { f with alerts := .badBuf :: f.alerts }, none, answers)
    | some (iovs, size) =>
      match answers with
      | .error :: rest => (bufs, f, none, rest)
      | ans :: rest =>
        let n := ans.accepted size
        let f := { f with sent := f.sent ++ (gathered f.mem iovs).take n }
        let r := ngxChainUpdateSent bufs inn n
        if size ≠ n then (r.1, { f with writeReady := false }, some r.2, rest)
        else if conf.limit ≤ send + size ∨ r.2 = [] then (r.1, f, some r.2, rest)
        else ngxWritevChain conf rest r.1 f r.2 (send + size)
      | [] =>
        let r := ngxChainUpdateSent bufs inn 0
        (r.1, if size ≠ 0 then { f with writeReady := false } else f, some r.2, [])

/-- `c->send_chain(c, *out, 0)`. -/
def sendChain (conf : Conf) (answers : List WriteAnswer) (bufs : Nat → Buf) (f : Flow) (inn : Chain) :
    (Nat → Buf) × Flow × Option Chain × List WriteAnswer :=
  if f.writeReady then ngxWritevChain conf answers bufs f inn 0 else (bufs, f, some inn, answers)

/-- `ngx_stream_write_filter(s, *out, from_upstream)`. -/
def ngxStreamWriteFilter (conf : Conf) (answers : List WriteAnswer) (bufs : Nat → Buf) (f : Flow) :
    (Nat → Buf) × Flow × Rc × List WriteAnswer :=
  if f.failed then (bufs, f, .error, answers)
  else
    let chain := f.saved ++ f.out
    if chain.any fun i => (bufs i).size = 0 && !(bufs i).special then
      (bufs, { f with alerts := .zeroSizeBuf :: f.alerts }, .error, answers)
    else if (chain.map fun i => (bufs i).size).sum = 0 then
      if chain.any fun i => (bufs i).lastBuf || (bufs i).flush then
        (bufs, { f with saved := [], buffered := false }, .ok, answers)
      else (bufs, { f with saved := chain, alerts := .emptyChain :: f.alerts }, .error, answers)
    else
      let r := sendChain conf answers bufs f chain
      match r.2.2.1 with
      | none => (r.1, { r.2.1 with failed := true }, .error, r.2.2.2)
      | some [] => (r.1, { r.2.1 with saved := [], buffered := false }, .ok, r.2.2.2)
      | some (i :: inn) => (r.1, { r.2.1 with saved := i :: inn, buffered := true }, .again, r.2.2.2)

/-- `ngx_chain_get_free_buf`. -/
def ngxChainGetFreeBuf (alloc : Bool) (p : Pool) : Option (Nat × Pool) :=
  match p.free with
  | i :: free => some (i, { p with free := free })
  | [] => if alloc then some (p.fresh, { p with fresh := p.fresh + 1 }) else none

/-- The second loop of `ngx_chain_update_chains`: bufs without data left go from the front of
`*busy` to the front of `*free`; every buf has the tag of the module. -/
def freeSent (p : Pool) : Chain → Pool × Chain
  | [] => (p, [])
  | i :: busy =>
    if (p.bufs i).size = 0 then
      freeSent ⟨Function.update p.bufs i { p.bufs i with pos := 0, last := 0 }, i :: p.free, p.fresh⟩ busy
    else (p, i :: busy)

def ngxChainUpdateChains (p : Pool) (f : Flow) : Pool × Flow :=
  let r := freeSent p (f.busy ++ f.out)
  (r.1, { f with out := [], busy := r.2 })

/-! ## The loop -/

/-- What the loop has: the pool, the direction, and the answers that are left. -/
structure Loop where
  pool : Pool
  flow : Flow
  writes : List WriteAnswer

/-- Under `if (do_write && dst)`; the other result is why the session is finalized. -/
def writeOut (conf : Conf) (l : Loop) : Loop × Option Closed :=
  let f := l.flow
  if f.out.isEmpty && f.busy.isEmpty && !f.buffered then (l, none)
  else
    let r := ngxStreamWriteFilter conf l.writes l.pool.bufs f
    if r.2.2.1 = .error then (⟨{ l.pool with bufs := r.1 }, r.2.1, r.2.2.2⟩, some .writeError)
    else
      let u := ngxChainUpdateChains { l.pool with bufs := r.1 } r.2.1
      let f := u.2
      (⟨u.1, if f.busy.isEmpty then { f with last := 0 } else f, r.2.2.2⟩, none)

def limitRate (conf : Conf) (fromUpstream : Bool) : Nat :=
  if fromUpstream then conf.downloadRate else conf.uploadRate

/-- The bytes that may be received now; `none` where the limit is reached. -/
def limited (rate : Nat) (elapsed : Int) (received size : Nat) : Option Nat :=
  if rate = 0 then some size
  else
    let limit : Int := rate * (elapsed + 1) - received
    if limit ≤ 0 then none else if limit < size then some limit.toNat else some size

/-- The `n` bytes behind `b->last` as a buf at the end of `*out`. -/
def append (p : Pool) (f : Flow) (i : Nat) (got : Bytes) : Pool × Flow :=
  let buf : Buf := ⟨f.last, f.last + got.length, !got.isEmpty, f.eof, true⟩
  ({ p with bufs := Function.update p.bufs i buf },
    { f with
      mem := write f.mem f.last got
      out := f.out ++ [i]
      received := f.received + got.length
      last := f.last + got.length })

/-- What one round does behind `size = b->end - b->last`. -/
inductive Received
  | stop (f : Flow)
  | noMemory (f : Flow)
  | again (p : Pool) (f : Flow)

def receive (conf : Conf) (rate : Nat) (elapsed : Int) (alloc : Bool) (p : Pool) (f : Flow)
    (ans : RecvAnswer) : Received :=
  let size := conf.bufferSize - f.last
  if size ≠ 0 && f.ready && !f.delayed && !f.error then
    match limited rate elapsed f.received size with
    | none => .stop { f with delayed := true }
    | some size =>
      let r := ngxUnixRecv f size ans
      if r.2.1 = .again then .stop r.1
      else
        let f := if r.2.1 = .error then { r.1 with eof := true } else r.1
        let f := if rate ≠ 0 ∧ r.2.2.length * 1000 / rate > 0 then { f with delayed := true } else f
        match ngxChainGetFreeBuf alloc p with
        | none => .noMemory f
        | some (i, p) =>
          let u := append p f i r.2.2
          .again u.1 u.2
  else .stop f

/-- `if (do_write && dst)`, the condition included. -/
def writeStep (conf : Conf) (doWrite connected : Bool) (l : Loop) : Loop × Option Closed :=
  if doWrite && connected then writeOut conf l else (l, none)

/-- `for ( ;; )`; a `recv` behind the end of the list would block. -/
def processLoop (conf : Conf) (rate : Nat) (elapsed : Int) (alloc connected : Bool) :
    List RecvAnswer → Bool → Loop → Loop × Option Closed
  | [], doWrite, l =>
    let w := writeStep conf doWrite connected l
    if w.2.isSome then w
    else
      match receive conf rate elapsed alloc w.1.pool w.1.flow .again with
      | .stop f | .noMemory f | .again _ f => ({ w.1 with flow := f }, none)
  | ans :: recvs, doWrite, l =>
    let w := writeStep conf doWrite connected l
    if w.2.isSome then w
    else
      match receive conf rate elapsed alloc w.1.pool w.1.flow ans with
      | .stop f => ({ w.1 with flow := f }, none)
      | .noMemory f => ({ w.1 with flow := f }, some .internalServerError)
      | .again p f => processLoop conf rate elapsed alloc connected recvs true ⟨p, f, w.1.writes⟩

/-! ## The session -/

structure Session where
  startSec : Int
  pool : Pool
  /-- For each value of `from_upstream`. -/
  flow : Bool → Flow
  /-- `u->connected`. -/
  connected : Bool
  closed : Option Closed

/-- `dst`: the client, or the upstream once there is one. -/
def Session.hasDst (s : Session) (fromUpstream : Bool) : Bool := fromUpstream || s.connected

/-- Behind the loop; `dst->read` is the reading side of the other direction. -/
def finish (env : Env) (fromUpstream : Bool) (s : Session) : Option Closed → Session
  | some why => { s with closed := some why }
  | none =>
    if (s.flow fromUpstream).eof && s.hasDst fromUpstream &&
        ((s.flow !fromUpstream).eof || !(s.flow fromUpstream).buffered) then
      { s with closed := some (.disconnected fromUpstream) }
    else if env.armed then s
    else { s with closed := some .internalServerError }

/-- `ngx_stream_socks5_process(s, from_upstream, do_write)`. -/
def process (conf : Conf) (env : Env) (fromUpstream doWrite : Bool) (s : Session) : Session :=
  let r := processLoop conf (limitRate conf fromUpstream) (env.now - s.startSec) env.alloc (s.hasDst fromUpstream)
    env.recvs doWrite ⟨s.pool, s.flow fromUpstream, env.writes⟩
  finish env fromUpstream { s with pool := r.1.pool, flow := Function.update s.flow fromUpstream r.1.flow } r.2

/-- Why a handler is called. -/
inductive Wake
  | ready
  /-- `ngx_post_event`. -/
  | posted
  | timedout
deriving DecidableEq, Repr

inductive Event
  /-- Bytes of the peer arrive; `upstream` says whose. -/
  | arrive (upstream : Bool) (bs : Bytes)
  /-- The peer has sent everything. -/
  | fin (upstream : Bool)
  /-- The upstream has taken the connect. -/
  | connected (env : Env)
  /-- The connect has failed or timed out. -/
  | connectFailed
  /-- A handler is called for the reading or the writing side of a connection. -/
  | handler (upstream write : Bool) (wake : Wake) (env : Env)

def Session.modify (s : Session) (d : Bool) (g : Flow → Flow) : Session :=
  { s with flow := Function.update s.flow d (g (s.flow d)) }

/-- `ngx_handle_read_event(ev, 0)`. -/
def rearm (env : Env) (s : Session) : Session :=
  if env.armed then s else { s with closed := some .internalServerError }

/-- The end of `ngx_stream_socks5_process_connection`. -/
def proceed (conf : Conf) (env : Env) (fromUpstream write : Bool) (s : Session) : Session :=
  if fromUpstream && !s.connected then s else process conf env fromUpstream write s

/-- `ngx_stream_socks5_process_connection`. The reading side of the upstream is `src` where
`from_upstream` is set, and its writing side `dst` where it is not. -/
def processConnection (conf : Conf) (env : Env) (upstream write timedout : Bool) (s : Session) : Session :=
  let fromUpstream := upstream != write
  let f := s.flow fromUpstream
  let delayed := !write && f.delayed
  let ready := if write then f.writeReady else f.ready
  if timedout then
    if delayed then
      let s' := s.modify fromUpstream fun f => { f with delayed := false }
      if ready then proceed conf env fromUpstream write s' else rearm env s'
    else { s with closed := some .timedOut }
  else if delayed then rearm env s
  else proceed conf env fromUpstream write s

/-- `ngx_stream_socks5_init_upstream` from `u->connected = 1` on. -/
def initUpstream (conf : Conf) (env : Env) (s : Session) : Session :=
  process conf env false true { s with connected := true }

/-- `ngx_stream_socks5_next_upstream`; `u->peer.tries` is 0. -/
def nextUpstream (s : Session) : Session :=
  let f := s.flow false
  if !f.out.isEmpty || !f.busy.isEmpty || f.buffered then { s with closed := some .internalServerError }
  else { s with closed := some .badGateway }

/-- What the event method does before it calls a handler. -/
def Session.wake (s : Session) (upstream write : Bool) : Wake → Session
  | .ready => s.modify (upstream != write) fun f =>
    if write then { f with writeReady := true } else { f with ready := true }
  | _ => s

def step (conf : Conf) (s : Session) (e : Event) : Session :=
  if s.closed.isSome then s
  else
    match e with
    | .arrive upstream bs => s.modify upstream fun f => if f.fin then f else { f with stream := f.stream ++ bs }
    | .fin upstream => s.modify upstream fun f => { f with fin := true }
    | .connected env => if s.connected then s else initUpstream conf env s
    | .connectFailed => if s.connected then s else nextUpstream s
    | .handler upstream write wake env =>
      -- before the connect the handlers of the upstream are `ngx_stream_socks5_connect_handler`
      if upstream && !s.connected then s
      else processConnection conf env upstream write (wake = .timedout) (s.wake upstream write wake)

def Flow.init (mem : Mem) (ready writeReady : Bool) : Flow where
  ready := ready
  eof := false
  error := false
  delayed := false
  stream := []
  taken := 0
  fin := false
  received := 0
  mem := mem
  last := 0
  out := []
  busy := []
  saved := []
  writeReady := writeReady
  buffered := false
  failed := false
  sent := []
  alerts := []

/-- What a session finds behind the handshake: the time at which it started, what the buffers and
bufs that were never used hold, and which sides are ready. -/
structure Start where
  startSec : Int
  mem : Bool → Mem
  bufs : Nat → Buf
  ready : Bool → Bool
  writeReady : Bool → Bool

def Session.init (st : Start) : Session where
  startSec := st.startSec
  pool := ⟨st.bufs, [], 0⟩
  flow d := .init (st.mem d) (st.ready d) (st.writeReady d)
  connected := false
  closed := none

end NgxPlus.Socks5.Relay
