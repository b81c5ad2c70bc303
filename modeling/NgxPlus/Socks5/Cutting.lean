import NgxPlus.Socks5.Handshake

/-!
# How the client's bytes are cut into reads (`ngx_stream_socks5_module.c`)

The handler waits for two bytes before authentication and for four afterwards, and takes what is
there then for the whole message. A longer message that comes in pieces is checked against what the
buffer held before (`in` is not cleared), and its rest is taken for the next message.

`cutting_irrelevant`: two cuttings of a message and a request have the same outcome where, in both, the
read that brings a message to the minimum brings its last byte; and where a list is configured and
the first byte is not 01, in any case, since the session ends at the second byte.
-/

namespace NgxPlus.Socks5.Handshake

open ByteMem Trace

/-! ## Streams and cuttings -/

/-- The first message of a client. -/
inductive First
  | greeting (g : Greeting)
  | userpass (m : Message)

def First.bytes : First → Bytes
  | .greeting g => g.bytes
  | .userpass m => m.bytes

inductive Target
  | ipv4 (addr : InAddr)
  | domain (name : Bytes) (len : name.length < 256)
  | ipv6 (addr : {b : Bytes // b.length = 16})

def Target.bytes : Target → Bytes
  | .ipv4 addr => socks5Ipv4 :: addr.1
  | .domain name _ => socks5Domain :: UInt8.ofNat name.length :: name
  | .ipv6 addr => socks5Ipv6 :: addr.1

/-- A CONNECT request. -/
structure ConnectRequest where
  target : Target
  port : InPort

def ConnectRequest.bytes (r : ConnectRequest) : Bytes := [socks5Version, socks5CmdConnect,
    0] ++ r.target.bytes ++ r.port.1

/-- A message in non-empty reads. -/
structure Cutting (msg : Bytes) where
  reads : List Bytes
  flatten : reads.flatten = msg
  nonempty : ∀ bs ∈ reads, bs ≠ []

/-- In one read. -/
def Cutting.whole {msg : Bytes} (h : msg ≠ []) : Cutting msg := ⟨[msg], by simp, by simpa using h⟩

/-- Before each read, fewer than `k` bytes have come. -/
def Early (k : Nat) (reads : List Bytes) : Prop := ∀ as bs rest, reads = as ++ bs :: rest → as.flatten.length < k

/-- What the system answers when no call fails; `n` is what the socket takes at most. -/
def fine (n : Nat) (resolver : Bool) : Answers := ⟨.took n, true, resolver⟩

def dataEvents (reads : List Bytes) (ans : Answers) : List Event := reads.map fun bs => .data bs ans

theorem dataEvents_cons (bs : Bytes) (reads : List Bytes) (ans : Answers) :
    dataEvents (bs :: reads) ans = .data bs ans :: dataEvents reads ans := rfl

theorem dataEvents_append (as bs : List Bytes) (ans : Answers) :
    dataEvents (as ++ bs) ans = dataEvents as ans ++ dataEvents bs ans := List.map_append

/-- The reply bytes, whether the client is authenticated, and where it is connected or what is asked of the
resolver for it. -/
def outcome (s : Handshake) : Bytes × Bool × List (InAddr × InPort) × List (Bytes × InPort) :=
  (s.out.flatten, s.authed, s.connects, s.queries)

section Streams

variable (passwdList : Option PasswdList) (inMem outMem : Mem)

def outcomeOf {f : First} {r : ConnectRequest} (c : Cutting f.bytes) (d : Cutting r.bytes) (ans : Answers) :=
  (run (handler passwdList) (init inMem outMem) (dataEvents (c.reads ++ d.reads) ans)).outcome

/-- The whole message authenticates its client. -/
def passes : First → Bool
  | .greeting _ => passwdList.isNone
  | .userpass m =>
    match passwdList with
    | none => true
    | some l => (authLoop l.elts (readReq (m.bytes ++ₛ inMem.drop m.bytes.length)) l.pairs.length 0 0).1

/-- No message is looked at before it is there: it is complete when it comes to the minimum size. -/
def CompleteAtMinimum {f : First} {r : ConnectRequest} (c : Cutting f.bytes) (d : Cutting r.bytes) : Prop :=
  Early 2 c.reads ∧ f.bytes.length ≤ ngxSocksAuthBufferLen ∧
    (passes passwdList inMem f = true → Early sizeofRequest d.reads ∧ r.bytes.length ≤ ngxSocksAuthBufferLen)

/-- The session ends at the second byte. -/
def EndsAtOnce (f : First) : Prop := passwdList.isSome ∧ f.bytes.head? ≠ some 1

end Streams

/-! ## Reads that wait -/

/-- Bytes that come in two reads are there as in one. -/
theorem arrived_arrived (s : Handshake) (bs bs' : Bytes) : (s.arrived bs).arrived bs' = s.arrived (bs ++ bs') := by
  have hbehind : (s.behind.drop bs.length).drop bs'.length = s.behind.drop (bs ++ bs').length := by
    rw [List.length_append]
    exact Stream'.drop_drop ..
  have hpending : s.pending ++ bs ++ bs' = s.pending ++ (bs ++ bs') := List.append_assoc ..
  have htop (a b : Nat) : max (max a b) b = max a b := by omega
  simp only [arrived, put, write_write, hpending, hbehind, htop]

section Reads

variable {passwdList : Option PasswdList} {s : Handshake} {ans : Answers}

theorem received_arrived (bs bs' : Bytes) :
    received passwdList (s.arrived bs) bs' ans = received passwdList s (bs ++ bs') ans := by
  simp only [received, arrived_arrived]

/-- Reads before the last of which the minimum is not there are one read. -/
theorem run_early (hc : s.closed = false) (hd : s.downstream = false) (harmed : ans.armed = true) {reads : List Bytes}
    (hne : reads ≠ []) (hreads : ∀ bs ∈ reads, bs ≠ []) (hfit :
    (s.pending ++ reads.flatten).length ≤ ngxSocksAuthBufferLen)
    (hearly : ∀ as bs rest, reads = as ++ bs :: rest → (s.pending ++ as.flatten).length < s.minimum) :
    run (handler passwdList) s (dataEvents reads ans) = received passwdList s reads.flatten ans := by
  induction reads generalizing s with
  | nil => exact absurd rfl hne
  | cons bs reads ih =>
    have hbs := hreads bs List.mem_cons_self
    have hfit' : (s.pending ++ bs).length ≤ ngxSocksAuthBufferLen := by
      simp only [List.flatten_cons, List.length_append] at hfit ⊢
      omega
    rw [dataEvents_cons, run_cons, handler_fits hc hd hbs hfit']
    cases reads with
    | nil => simp [dataEvents]
    | cons bs' reads =>
      have hwaits : (s.pending ++ bs).length < s.minimum := by
        have h := hearly [bs] bs' reads rfl
        rwa [List.flatten_cons, List.flatten_nil, List.append_nil] at h
      have hrest := ih (s := s.arrived bs) hc hd (List.cons_ne_nil _ _)
        (fun x hx => hreads x (List.mem_cons_of_mem _ hx)) ?_ ?_
      · rw [received_waits hwaits, rearm, if_pos harmed, hrest, received_arrived]
        rfl
      · show ((s.pending ++ bs) ++ _).length ≤ _
        rwa [List.append_assoc]
      · intro as x rest he
        have h := hearly (bs :: as) x rest (by rw [he]; rfl)
        show ((s.pending ++ bs) ++ _).length < s.minimum
        rwa [List.append_assoc]

/-- With a list, a first byte other than 01 ends the session, however it is cut. -/
theorem run_foreign {l : PasswdList} (hc : s.closed = false) (hd : s.downstream = false) (harmed : ans.armed = true)
    (hs : s.authed = false) (hpending : s.pending.length < 2) {reads : List Bytes} (hreads : ∀ bs ∈ reads, bs ≠ [])
    (hlen : 2 ≤ (s.pending ++ reads.flatten).length) (h1 : (s.pending ++ reads.flatten).head? ≠ some 1) :
    (run (handler (some l)) s (dataEvents reads ans)).closed = true ∧
      (run (handler (some l)) s (dataEvents reads ans)).outcome = s.outcome := by
  induction reads generalizing s with
  | nil =>
    rw [List.flatten_nil, List.append_nil] at hlen
    omega
  | cons bs reads ih =>
    have hbs := hreads bs List.mem_cons_self
    obtain ⟨k, hk⟩ : ∃ k, ngxSocksAuthBufferLen - s.pending.length = k + 2 := ⟨98 - s.pending.length, by
      rw [ngxSocksAuthBufferLen]
      omega⟩
    obtain ⟨x, xs, rfl⟩ := List.exists_cons_of_ne_nil hbs
    have hroom : s.room (x :: xs) = x :: xs.take (k + 1) := by rw [room, hk, List.take_succ_cons]
    have hhead : (s.pending ++ s.room (x :: xs)).head? = (s.pending ++ ((x :: xs) :: reads).flatten).head? := by
      rw [hroom]
      cases s.pending with
      | cons y ys => rfl
      | nil => rfl
    rw [dataEvents_cons, run_cons, handler_data hc hd, if_neg (by rw [hroom]; exact List.cons_ne_nil _ _)]
    by_cases hwaits : (s.pending ++ s.room (x :: xs)).length < 2
    · have hall : s.room (x :: xs) = x :: xs := by
        rw [hroom, List.length_append, List.length_cons, List.length_take] at hwaits
        rw [hroom, List.take_of_length_le (by omega)]
      rw [hall] at hwaits ⊢
      rw [received_waits (by rwa [minimum_of_not_authed hs]), rearm, if_pos harmed]
      refine ih (s := s.arrived (x :: xs)) hc hd hs hwaits (fun y hy => hreads y (List.mem_cons_of_mem _ hy)) ?_ ?_
      · show 2 ≤ ((s.pending ++ (x :: xs)) ++ _).length
        rwa [List.append_assoc]
      · show ((s.pending ++ (x :: xs)) ++ _).head? ≠ _
        rwa [List.append_assoc]
    · rw [received_foreign hs (Nat.not_lt.1 hwaits) (by rwa [hhead]), run_closed rfl]
      exact ⟨rfl, rfl⟩

theorem downstream_send (s : Handshake) (send : Sent) : (s.ngxSocks5Send send).downstream = s.downstream := by
  unfold ngxSocks5Send
  split
  · rfl
  · cases send <;> rfl

theorem downstream_rearm (s : Handshake) (armed : Bool) : (s.rearm armed).downstream = s.downstream := by
  unfold rearm
  split <;> rfl

/-- Before authentication nothing is connected. -/
theorem downstream_received (hs : s.authed = false) (bs : Bytes) :
    (received passwdList s bs ans).downstream = s.downstream := by
  by_cases hlen : (s.pending ++ bs).length < 2
  · rw [received_waits (by rwa [minimum_of_not_authed hs]), downstream_rearm]
    rfl
  · rw [received_authenticate hs (Nat.not_lt.1 hlen)]
    simp only [authenticate]
    split
    · rw [downstream_rearm, answer, downstream_send]
      rfl
    · cases passwdList with
      | some l => rfl
      | none =>
        simp only
        rw [downstream_rearm, answer, downstream_send]
        rfl

end Reads

/-! ## The first look -/

/-- Neither closed nor connected, and nothing is pending. -/
structure Idle (authed : Bool) (s : Handshake) : Prop where
  closed : s.closed = false
  downstream : s.downstream = false
  authed : s.authed = authed
  pending : s.pending = []

/-- The answer to a message that memory begins with. -/
def accepts (passwdList : Option PasswdList) (mem : Mem) : Bool :=
  match passwdList with
  | none => true
  | some l => (authLoop l.elts (readReq mem) l.pairs.length 0 0).1

section Looks

variable (passwdList : Option PasswdList) (n : Nat) (resolver : Bool) {s : Handshake} (bs : Bytes)

theorem idle_authenticated (hc : s.closed = false) (hd : s.downstream = false) (hs : s.authed = false)
    (h2 : 2 ≤ (s.pending ++ bs).length) (h1 : passwdList = none ∨ (s.pending ++ bs).head? = some 1) :
    Idle (accepts passwdList (s.pending ++ bs ++ₛ s.behind.drop bs.length))
        (received passwdList s bs (fine n resolver)) ∧
      (received passwdList s bs (fine n resolver)).out =
        s.out ++ [[if (s.pending ++ bs).head? = some 1 then 1 else socks5Version,
          if accepts passwdList (s.pending ++ bs ++ₛ s.behind.drop bs.length) then 0x00 else 0xff]] := by
  have hsend : (fine n resolver).send ≠ .error := by simp [fine]
  have hsession := toSession_received passwdList hs bs hsend rfl
  have hdown : (received passwdList s bs (fine n resolver)).downstream = s.downstream := downstream_received hs bs
  have hlong : ¬ (s.authed || decide ((s.pending ++ bs).length < 2)) = true := by
    rw [hs, Bool.false_or, decide_eq_true_eq]
    exact Nat.not_lt.2 h2
  suffices hall : (Socks5.received passwdList s.toSession bs).closed = false ∧
      (Socks5.received passwdList s.toSession bs).pending = [] ∧
      (Socks5.received passwdList s.toSession bs).authed =
        accepts passwdList (s.pending ++ bs ++ₛ s.behind.drop bs.length) ∧
      (Socks5.received passwdList s.toSession bs).out =
        s.out ++ [[if (s.pending ++ bs).head? = some 1 then 1 else socks5Version,
          if accepts passwdList (s.pending ++ bs ++ₛ s.behind.drop bs.length) then 0x00 else 0xff]] by
    obtain ⟨hclosed, hpending, hauthed, hout⟩ := hall
    rw [← hsession] at hclosed hpending hauthed hout
    exact ⟨⟨hclosed, hdown.trans hd, hauthed, hpending⟩, hout⟩
  simp only [Socks5.received]
  rw [if_neg hlong]
  by_cases hhead : (s.pending ++ bs).head? = some 1
  · rw [if_pos hhead, if_pos hhead]
    cases passwdList with
    | none => exact ⟨hc, rfl, rfl, rfl⟩
    | some l => exact ⟨hc, rfl, rfl, rfl⟩
  · rw [if_neg hhead, if_neg hhead]
    obtain rfl := h1.resolve_right hhead
    exact ⟨hc, rfl, rfl, rfl⟩

end Looks

/-! ## The first message -/

theorem First.two_le_length (f : First) : 2 ≤ f.bytes.length := by
  cases f with
  | greeting g => exact Nat.le_add_left 2 _
  | userpass m =>
    rw [First.bytes, m.length_bytes]
    omega

theorem ConnectRequest.four_le_length (r : ConnectRequest) : sizeofRequest ≤ r.bytes.length := by
  obtain ⟨target, port⟩ := r
  cases target <;> simp [ConnectRequest.bytes, Target.bytes, sizeofRequest]

theorem ConnectRequest.head_ne_one (r : ConnectRequest) : r.bytes.head? ≠ some 1 := by
  intro h
  exact absurd (Option.some.inj h) (by decide)

section First

variable (passwdList : Option PasswdList) (inMem outMem : Mem) (n : Nat) (resolver : Bool)

/-- The state behind the first message in one read. -/
def afterFirst (f : First) : Handshake := received passwdList (init inMem outMem) f.bytes (fine n resolver)

theorem First.head?_ne_one {g : Greeting} : (First.greeting g).bytes.head? ≠ some 1 :=
  fun h1 => absurd (Option.some.inj h1) (by decide)

/-- A whole message decides whether the client is authenticated. -/
theorem idle_afterFirst {f : First} (h : ¬ EndsAtOnce passwdList f) :
    Idle (passes passwdList inMem f) (afterFirst passwdList inMem outMem n resolver f) := by
  have hopen : passwdList = none ∨ f.bytes.head? = some 1 := by
    cases passwdList with
    | none => exact Or.inl rfl
    | some l => exact Or.inr (not_not.1 fun h1 => h ⟨rfl, h1⟩)
  obtain ⟨hidle, -⟩ := idle_authenticated passwdList n resolver (s := init inMem outMem) f.bytes rfl rfl rfl
    f.two_le_length hopen
  have hpasses : passes passwdList inMem f = accepts passwdList (f.bytes ++ₛ inMem.drop f.bytes.length) := by
    cases passwdList with
    | none => cases f <;> rfl
    | some l =>
      cases f with
      | greeting g => exact absurd (hopen.resolve_left (by simp)) First.head?_ne_one
      | userpass m => rfl
  rw [hpasses]
  exact hidle

variable {passwdList inMem}

theorem Cutting.run_first {f : First} (c : Cutting f.bytes) (hearly : Early 2 c.reads)
    (hfit : f.bytes.length ≤ ngxSocksAuthBufferLen) :
    run (handler passwdList) (init inMem outMem) (dataEvents c.reads (fine n resolver)) =
      afterFirst passwdList inMem outMem n resolver f := by
  have hne : c.reads ≠ [] := by
    intro h
    have hlen := f.two_le_length
    rw [← c.flatten, h] at hlen
    exact absurd hlen (by decide)
  rw [run_early (s := init inMem outMem) rfl rfl rfl hne c.nonempty (by rw [c.flatten]; exact hfit) hearly, c.flatten]
  rfl

variable {f : First} {r : ConnectRequest} (c : Cutting f.bytes) (d : Cutting r.bytes)

/-- Where no message is looked at before it is there, the outcome is that of whole messages. -/
theorem outcomeOf_complete (hf : ¬ EndsAtOnce passwdList f) (h : CompleteAtMinimum passwdList inMem c d) :
    outcomeOf passwdList inMem outMem c d (fine n resolver) =
      if passes passwdList inMem f then
        (received passwdList (afterFirst passwdList inMem outMem n resolver f) r.bytes (fine n resolver)).outcome
      else (afterFirst passwdList inMem outMem n resolver f).outcome := by
  obtain ⟨hearly, hfit, hsecond⟩ := h
  obtain ⟨hclosed, hdown, hauthed, hpending⟩ := idle_afterFirst passwdList inMem outMem n resolver hf
  have hrequest := r.four_le_length
  rw [outcomeOf, dataEvents_append, run_append, c.run_first outMem n resolver hearly hfit]
  cases hp : passes passwdList inMem f with
  | true =>
    obtain ⟨hearly2, hfit2⟩ := hsecond hp
    have hne : d.reads ≠ [] := by
      intro h
      rw [← d.flatten, h] at hrequest
      exact absurd hrequest (by decide)
    rw [run_early hclosed hdown rfl hne d.nonempty (by rw [hpending, d.flatten]; exact hfit2) ?_, d.flatten, if_pos rfl]
    intro as bs rest he
    rw [hpending, minimum_of_authed (hauthed.trans hp)]
    exact hearly2 as bs rest he
  | false =>
    cases passwdList with
    | none =>
      cases f <;> cases hp
    | some l =>
      rw [hp] at hauthed
      rw [if_neg Bool.false_ne_true]
      refine (run_foreign hclosed hdown rfl hauthed (by rw [hpending]; decide) d.nonempty ?_ ?_).2
      · rw [hpending, d.flatten]
        exact le_trans (by decide) hrequest
      · rw [hpending, d.flatten]
        exact r.head_ne_one

theorem outcomeOf_endsAtOnce (hf : EndsAtOnce passwdList f) :
    outcomeOf passwdList inMem outMem c d (fine n resolver) = (init inMem outMem).outcome := by
  obtain ⟨hl, hhead⟩ := hf
  obtain ⟨l, rfl⟩ := Option.isSome_iff_exists.1 hl
  have harmed : (fine n resolver).armed = true := rfl
  obtain ⟨hclosed, hout⟩ := run_foreign (s := init inMem outMem) (l := l) rfl rfl harmed rfl
    Nat.two_pos c.nonempty (by rw [c.flatten]; exact f.two_le_length) (by rw [c.flatten]; exact hhead)
  rw [outcomeOf, dataEvents_append, run_append, run_closed hclosed, hout]

end First

/-- **The cutting does not matter** where no message is looked at before it is there. -/
theorem cutting_irrelevant {passwdList : Option PasswdList} (inMem outMem : Mem) (n : Nat) (resolver : Bool)
    {f : First} {r : ConnectRequest} (c c' : Cutting f.bytes) (d d' : Cutting r.bytes)
    (h : EndsAtOnce passwdList f ∨ CompleteAtMinimum passwdList inMem c d)
    (h' : EndsAtOnce passwdList f ∨ CompleteAtMinimum passwdList inMem c' d') :
    outcomeOf passwdList inMem outMem c d (fine n resolver) = outcomeOf passwdList inMem outMem c' d'
        (fine n resolver) := by
  by_cases hf : EndsAtOnce passwdList f
  · rw [outcomeOf_endsAtOnce outMem n resolver c d hf, outcomeOf_endsAtOnce outMem n resolver c' d' hf]
  · rw [outcomeOf_complete outMem n resolver c d hf (h.resolve_left hf),
      outcomeOf_complete outMem n resolver c' d' hf (h'.resolve_left hf)]

/-- `05 01 00`, and port 80 of 10.0.0.1. -/
def plainGreeting : First := .greeting ⟨[0], by decide⟩

def tenRequest : ConnectRequest := ⟨.ipv4 ⟨[10, 0, 0, 1], length_tenHost⟩, ⟨[0, 80], length_portBytes⟩⟩

theorem early_two {k : Nat} (bs bs' : Bytes) (hk : 0 < k) (h : bs.length < k) : Early k [bs, bs'] := by
  intro as x rest he
  match as, he with
  | [], _ => exact hk
  | [_], he =>
    obtain ⟨rfl, -⟩ := List.cons.inj he
    simpa using h
  | _ :: _ :: as, he =>
    obtain ⟨-, he⟩ := List.cons.inj he
    obtain ⟨-, he⟩ := List.cons.inj he
    simp at he

theorem early_one {k : Nat} (bs : Bytes) (hk : 0 < k) : Early k [bs] := by
  intro as x rest he
  match as, he with
  | [], _ => exact hk
  | _ :: as, he =>
    obtain ⟨-, he⟩ := List.cons.inj he
    simp at he

/-- Each message in two reads of which the first is too short to be looked at. -/
def lateGreeting : Cutting plainGreeting.bytes := ⟨[[5], [1, 0]], rfl, by decide⟩

def lateRequest : Cutting tenRequest.bytes := ⟨[[5, 1, 0], [1, 10, 0, 0, 1, 0, 80]], rfl, by decide⟩

def wholeGreeting : Cutting plainGreeting.bytes := .whole (by decide)

def wholeRequest : Cutting tenRequest.bytes := .whole (by decide)

example :
    outcomeOf none (Stream'.const 0) (Stream'.const 0) lateGreeting lateRequest (fine 10 true) =
      outcomeOf none (Stream'.const 0) (Stream'.const 0) wholeGreeting wholeRequest (fine 10 true) :=
  cutting_irrelevant (Stream'.const 0) (Stream'.const 0) 10 true lateGreeting wholeGreeting lateRequest wholeRequest
    (Or.inr ⟨early_two _ _ (by decide) (by decide), by decide, fun _ =>
    ⟨early_two _ _ (by decide) (by decide), by decide⟩⟩)
    (Or.inr ⟨early_one _ (by decide), by decide, fun _ => ⟨early_one _ (by decide), by decide⟩⟩)

end NgxPlus.Socks5.Handshake
