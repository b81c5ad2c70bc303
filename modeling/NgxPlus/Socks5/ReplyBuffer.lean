import NgxPlus.Socks5.Handshake

/-!
# The reply buffer of the handshake (`ngx_stream_socks5_module.c`)

`in` is emptied after every message, `out` never is: `ngx_socks5_send` moves `out->pos` on by what
the socket took, and every reply is written at `out->pos`. So `pos` is the number of bytes that the
client has been sent (`pos_eq_sent`), and the 100 bytes of the buffer are used up by a client that
sends messages which are answered but do not connect.

`extent` is how far behind `out->pos` the stores of one step reach. It is 4 for everything that
arrives: the header is written before the message is looked at. It is 10 for the request of an
IPv4 address and 12 for the resolver's answer, whose address is stored 4 bytes behind its place.

`reply_inBuffer_iff`: along every run the stores stay inside the buffer exactly if each step finds
room for its extent behind the bytes that the client has been sent.
-/

namespace NgxPlus.Socks5.Handshake

open ByteMem Trace

/-- What has been said of the buffer, of one state. -/
structure InBuffer (s : Handshake) : Prop where
  pos : s.pos ≤ s.last
  last : s.last ≤ ngxSocksAuthBufferLen
  top : s.top ≤ ngxSocksAuthBufferLen

/-- The bytes are the beginning of a request for an IPv4 address. -/
def isConnectIpv4 : Bytes → Bool
  | ver :: cmd :: _ :: atype :: _ => ver == socks5Version && cmd == socks5CmdConnect && atype == socks5Ipv4
  | _ => false

/-- How far the stores of a step reach behind `out->pos`; `none` without a store. -/
def extent (s : Handshake) : Event → Option Nat
  | .data bs _ =>
    if s.closed ∨ s.downstream ∨ s.room bs = [] then none
    else if s.authed && isConnectIpv4 (s.pending ++ s.room bs) then some 10
    else some 4
  | .resolved (some _) _ => if s.closed ∨ s.resolving = 0 then none else some 12
  | _ => none

/-- There is room behind the bytes that the client has been sent. -/
def HasRoom (s : Handshake) (ev : Event) : Prop :=
  ∀ ext ∈ s.extent ev, s.sent.length + ext ≤ ngxSocksAuthBufferLen

/-! ## What a step does to the buffer -/

/-- The side of the state that the buffer is described by. -/
def outSide (s : Handshake) : Nat × Nat × Nat × Bytes := (s.pos, s.last, s.top, s.sent)

@[simp] theorem outSide_finalize (s : Handshake) : s.finalize.outSide = s.outSide := rfl

@[simp] theorem outSide_rearm (s : Handshake) (armed : Bool) : (s.rearm armed).outSide = s.outSide := by
  unfold rearm
  split <;> rfl

@[simp] theorem outSide_connect (s : Handshake) : s.connect.outSide = s.outSide := by
  unfold connect
  split <;> rfl

/-- Stores up to `ext`, and a reply no longer than that of which a part is sent, or none. -/
structure Effect (ext : Nat) (s s' : Handshake) : Prop where
  top : s'.top = max s.top (s.pos + ext)
  reply : (s'.pos = s.pos ∧ s'.last = s.last ∧ s'.sent = s.sent) ∨
    ∃ n m, n ≤ ext ∧ m ≤ n ∧ s'.last = s.pos + n ∧ s'.pos = s.pos + m ∧ s'.sent.length = s.sent.length + m

theorem Effect.congr {ext : Nat} {s s' s'' : Handshake} (h : Effect ext s s') (he : s''.outSide = s'.outSide) :
    Effect ext s s'' := by
  obtain ⟨hpos, he⟩ := Prod.mk.inj he
  obtain ⟨hlast, he⟩ := Prod.mk.inj he
  obtain ⟨htop, hsent⟩ := Prod.mk.inj he
  exact ⟨by rw [htop, h.top], by rw [hpos, hlast, hsent]; exact h.reply⟩

/-- A reply of `n` bytes behind stores that reach as far as `ext`. -/
theorem effect_send {ext n : Nat} {s t : Handshake} (htop : t.top = max s.top (s.pos + ext)) (hpos : t.pos = s.pos)
    (hlast : t.last = s.pos + n) (hsent : t.sent = s.sent) (hn : n ≤ ext) (send : Sent) :
    Effect ext s (t.ngxSocks5Send send) := by
  have hkept (t' : Handshake) (h : t'.outSide = t.outSide) : Effect ext s t' :=
    Effect.congr ⟨htop, Or.inr ⟨n, 0, hn, Nat.zero_le n, hlast, hpos, congrArg List.length hsent⟩⟩ h
  unfold ngxSocks5Send
  split
  · exact hkept t rfl
  · cases send with
    | again => exact hkept t rfl
    | error => exact hkept _ rfl
    | took k =>
      have hm : min k (t.last - t.pos) ≤ n := by
        rw [hlast, hpos]
        omega
      refine ⟨htop, Or.inr ⟨n, min k (t.last - t.pos), hn, hm, hlast, ?_, ?_⟩⟩
      · show t.pos + _ = _
        rw [hpos]
      · show (t.sent ++ (t.outMem.drop t.pos).take _).length = _
        rw [List.length_append, Stream'.length_take, hsent]

theorem top_put (s : Handshake) (off : Nat) (bs : Bytes) : (s.put off bs).top = max s.top (off + bs.length) := rfl

/-- A store into the header changes nothing that it did not. -/
theorem top_put_header (s : Handshake) (bs : Bytes) {i : Nat} {x : Bytes} (h : i + x.length ≤ 4) :
    ((s.arrived bs).put (s.pos + i) x).top = max s.top (s.pos + 4) := by
  have harrived : (s.arrived bs).top = max s.top (s.pos + 4) := rfl
  rw [top_put, harrived]
  omega

/-- Stores without a reply. -/
theorem effect_quiet {s t : Handshake} (h : t.outSide = (s.pos, s.last, max s.top (s.pos + 4), s.sent)) : Effect 4 s t := by
  obtain ⟨hpos, h⟩ := Prod.mk.inj h
  obtain ⟨hlast, h⟩ := Prod.mk.inj h
  obtain ⟨htop, hsent⟩ := Prod.mk.inj h
  exact ⟨htop, Or.inl ⟨hpos, hlast, hsent⟩⟩

/-- A reply in the header's place. -/
theorem effect_answer {s t : Handshake} (htop : t.top = max s.top (s.pos + 4)) (hpos : t.pos = s.pos)
    (hsent : t.sent = s.sent) {n : Nat} (hn : n ≤ 4) (mem : Mem) (ans : Answers) :
    Effect 4 s ((t.answer n mem ans.send).rearm ans.armed) := by
  refine Effect.congr ?_ (outSide_rearm _ _)
  refine effect_send (n := n) ?_ ?_ ?_ ?_ hn ans.send
  · exact htop
  · exact hpos
  · exact congrArg (· + n) hpos
  · exact hsent

theorem effect_authenticate (passwdList : Option PasswdList) (s : Handshake) (bs : Bytes) (ans : Answers) :
    Effect 4 s ((s.arrived bs).authenticate passwdList ans) := by
  have htop := top_put_header s bs (i := 1) (x := [socks5AuthUserpass]) (by decide)
  simp only [authenticate]
  split
  · refine effect_answer ?_ ?_ ?_ (by decide) _ ans
    · show max _ (s.pos + 2) = _
      rw [pos_arrived, htop]
      omega
    · rfl
    · rfl
  · cases passwdList with
    | some l =>
      refine effect_quiet ?_
      show (s.pos, s.last, _, s.sent) = _
      rw [← htop]
      rfl
    | none =>
      refine effect_answer ?_ ?_ ?_ (by decide) _ ans
      · show max _ (s.pos + 1 + 1) = _
        rw [pos_arrived, htop]
        omega
      · rfl
      · rfl

/-- A request that is refused or goes to the resolver. -/
theorem effect_request {s : Handshake} {bs : Bytes} (ans : Answers)
    (h : (s.arrived bs).mem.get 0 ≠ socks5Version ∨ (s.arrived bs).mem.get 1 ≠ socks5CmdConnect ∨
      (s.arrived bs).mem.get 3 ≠ socks5Ipv4) :
    Effect 4 s ((s.arrived bs).request ans) := by
  have hrefused (mem : Mem) : Effect 4 s
      ((((s.arrived bs).put (s.pos + 1) [socks5RepCmdNotSupported]).answer 4 mem ans.send).rearm ans.armed) :=
    effect_answer (top_put_header s bs (by decide)) rfl rfl le_rfl mem ans
  simp only [request]
  split
  · exact hrefused _
  · rename_i hok
    obtain ⟨h0, h1⟩ := not_or.1 hok
    rw [if_neg ((h.resolve_left h0).resolve_left h1)]
    split
    · split
      · exact effect_quiet rfl
      · exact effect_quiet rfl
    · exact hrefused _

theorem effect_requestIpv4 {s : Handshake} {bs : Bytes} (ans : Answers) (h0 : (s.arrived bs).mem.get 0 = socks5Version)
    (h1 : (s.arrived bs).mem.get 1 = socks5CmdConnect) (h3 : (s.arrived bs).mem.get 3 = socks5Ipv4) :
    Effect 10 s ((s.arrived bs).request ans) := by
  have hheader : header.length = 4 := rfl
  simp only [request]
  rw [if_neg (by simp [h0, h1]), if_pos h3]
  refine Effect.congr ?_ (outSide_connect _)
  refine Effect.congr ?_ (outSide_rearm _ _)
  refine effect_send (n := 10) ?_ ?_ ?_ ?_ le_rfl ans.send
  · show max (max (max s.top (s.pos + header.length)) (s.pos + 4 + (inAddrAt (s.arrived bs).mem 4).1.length))
      (s.pos + 8 + (inPortAt (s.arrived bs).mem 8).1.length) = _
    rw [(inAddrAt (s.arrived bs).mem 4).2, (inPortAt (s.arrived bs).mem 8).2, hheader]
    omega
  · rfl
  · rfl
  · rfl

theorem effect_resolved (s : Handshake) (addr : InAddr) (send : Sent) : Effect 12 s (s.resolved addr send) := by
  unfold resolved
  refine Effect.congr ?_ (outSide_connect _)
  refine effect_send (n := 10) ?_ ?_ ?_ ?_ (by decide) send
  · show max (max s.top (s.pos + 8 + addr.1.length)) (s.pos + 8 + s.sinPort.1.length) = _
    rw [addr.2, s.sinPort.2]
    omega
  · rfl
  · rfl
  · rfl

theorem isConnectIpv4_iff {bs : Bytes} (h : sizeofRequest ≤ bs.length) (behind : Mem) :
    isConnectIpv4 bs = true ↔ (bs ++ₛ behind).get 0 = socks5Version ∧ (bs ++ₛ behind).get 1 = socks5CmdConnect ∧
      (bs ++ₛ behind).get 3 = socks5Ipv4 := by
  match bs, h with
  | ver :: cmd :: rsv :: atype :: rest, _ =>
    show (ver == socks5Version && cmd == socks5CmdConnect && atype == socks5Ipv4) = true ↔
      ver = socks5Version ∧ cmd = socks5CmdConnect ∧ atype = socks5Ipv4
    simp [and_assoc]

theorem isConnectIpv4_short {bs : Bytes} (h : bs.length < sizeofRequest) : isConnectIpv4 bs = false := by
  match bs, h with
  | [], _ => rfl
  | [_], _ => rfl
  | [_, _], _ => rfl
  | [_, _, _], _ => rfl

/-- A request's stores reach 10 bytes where it is for an IPv4 address. -/
theorem effect_received (passwdList : Option PasswdList) (s : Handshake) (bs : Bytes) (ans : Answers) :
    Effect (if s.authed && isConnectIpv4 (s.pending ++ bs) then 10 else 4) s (received passwdList s bs ans) := by
  by_cases hmin : (s.pending ++ bs).length < s.minimum
  · have hshort : (s.authed && isConnectIpv4 (s.pending ++ bs)) = false := by
      cases ha : s.authed with
      | false => rfl
      | true =>
        rw [minimum_of_authed ha] at hmin
        rw [isConnectIpv4_short hmin]
        rfl
    rw [hshort, received_waits hmin]
    exact (effect_quiet rfl).congr (outSide_rearm _ _)
  · cases ha : s.authed with
    | false =>
      rw [minimum_of_not_authed ha] at hmin
      rw [received_authenticate ha (Nat.not_lt.1 hmin)]
      exact effect_authenticate passwdList s bs ans
    | true =>
      rw [minimum_of_authed ha] at hmin
      have hiff := isConnectIpv4_iff (Nat.not_lt.1 hmin) (s.behind.drop bs.length)
      rw [received_request ha (Nat.not_lt.1 hmin), Bool.true_and]
      cases hip : isConnectIpv4 (s.pending ++ bs) with
      | true =>
        obtain ⟨h0, h1, h3⟩ := hiff.1 hip
        exact effect_requestIpv4 ans h0 h1 h3
      | false =>
        refine effect_request ans ?_
        by_contra hno
        obtain ⟨h0, hno⟩ := not_or.1 hno
        obtain ⟨h1, h3⟩ := not_or.1 hno
        rw [hiff.2 ⟨not_not.1 h0, not_not.1 h1, not_not.1 h3⟩] at hip
        cases hip

section Step

variable {passwdList : Option PasswdList} {s : Handshake} {ev : Event}

theorem effect_handler (passwdList : Option PasswdList) {ext : Nat} (h : s.extent ev = some ext) :
    Effect ext s (handler passwdList s ev) := by
  cases ev with
  | timedout => cases h
  | again armed => cases h
  | fail => cases h
  | data bs ans =>
    simp only [extent] at h
    split at h
    · cases h
    · rename_i hopen
      obtain ⟨hc, hopen⟩ := not_or.1 hopen
      obtain ⟨hd, hroom⟩ := not_or.1 hopen
      have heff := effect_received passwdList s (s.room bs) ans
      rw [handler_data (Bool.eq_false_of_not_eq_true hc) (Bool.eq_false_of_not_eq_true hd), if_neg hroom]
      split at h
      · rename_i hip
        obtain rfl := Option.some.inj h
        rwa [if_pos hip] at heff
      · rename_i hip
        obtain rfl := Option.some.inj h
        rwa [if_neg hip] at heff
  | resolved addr send =>
    cases addr with
    | none => cases h
    | some addr =>
      simp only [extent] at h
      split at h
      · cases h
      · rename_i hopen
        obtain ⟨hc, hres⟩ := not_or.1 hopen
        obtain rfl := Option.some.inj h
        simp only [handler, if_neg hc, if_neg hres]
        exact effect_resolved s addr send

theorem outSide_handler (passwdList : Option PasswdList) (h : s.extent ev = none) :
    (handler passwdList s ev).outSide = s.outSide := by
  unfold handler
  split
  · rfl
  · rename_i hc
    cases ev with
    | timedout | fail =>
      simp only
      split <;> rfl
    | again armed =>
      simp only
      split
      · rfl
      · exact outSide_rearm s armed
    | data bs ans =>
      simp only [extent] at h
      split at h
      · rename_i hshut
        simp only
        split
        · rfl
        · rename_i hd
          rw [if_pos ((hshut.resolve_left hc).resolve_left hd)]
          rfl
      · split at h <;> cases h
    | resolved addr send =>
      cases addr with
      | none =>
        simp only
        split <;> rfl
      | some addr =>
        simp only [extent] at h
        split at h
        · rename_i hshut
          simp only
          rw [if_pos (hshut.resolve_left hc)]
        · cases h

/-! ## Runs -/

/-- Every byte that `pos` has moved on is one that the client has been sent. -/
theorem pos_eq_sent (h : s.pos = s.sent.length) :
    (handler passwdList s ev).pos = (handler passwdList s ev).sent.length := by
  cases he : s.extent ev with
  | none =>
    obtain ⟨hpos, hrest⟩ := Prod.mk.inj (outSide_handler passwdList he)
    obtain ⟨-, hrest⟩ := Prod.mk.inj hrest
    obtain ⟨-, hsent⟩ := Prod.mk.inj hrest
    rw [hpos, hsent, h]
  | some ext =>
    rcases (effect_handler passwdList he).reply with ⟨hpos, -, hsent⟩ | ⟨n, m, -, -, -, hpos, hsent⟩
    · rw [hpos, hsent, h]
    · rw [hpos, hsent, h]

/-- A step from inside the buffer stays there exactly if there is room. -/
theorem inBuffer_step (hpos : s.pos = s.sent.length) (hs : InBuffer s) :
    InBuffer (handler passwdList s ev) ↔ HasRoom s ev := by
  unfold HasRoom
  cases he : s.extent ev with
  | none =>
    obtain ⟨hp, hrest⟩ := Prod.mk.inj (outSide_handler passwdList he)
    obtain ⟨hl, hrest⟩ := Prod.mk.inj hrest
    obtain ⟨ht, -⟩ := Prod.mk.inj hrest
    refine iff_of_true ⟨?_, ?_, ?_⟩ (by simp)
    · rw [hp, hl]
      exact hs.pos
    · rw [hl]
      exact hs.last
    · rw [ht]
      exact hs.top
  | some ext =>
    have heff := effect_handler passwdList he
    have htop := heff.top
    simp only [Option.mem_def, Option.some.injEq, forall_eq']
    rw [← hpos]
    constructor
    · intro hin
      have := hin.top
      omega
    · intro hroom
      have h1 := hs.pos
      have h2 := hs.last
      have h3 := hs.top
      rcases heff.reply with ⟨hp, hl, -⟩ | ⟨n, m, hn, hm, hl, hp, -⟩
      · exact ⟨by omega, by omega, by omega⟩
      · exact ⟨by omega, by omega, by omega⟩

end Step

/-- **The reply buffer** is never left exactly if every step has room behind what the client has been
sent. -/
theorem reply_inBuffer_iff (passwdList : Option PasswdList) (inMem outMem : Mem) (evs : List Event) :
    (∀ as bs, evs = as ++ bs → InBuffer (run (handler passwdList) (init inMem outMem) as)) ↔
      Always (handler passwdList) HasRoom (init inMem outMem) evs := by
  have hinit : InBuffer (init inMem outMem) := ⟨le_rfl, Nat.zero_le _, Nat.zero_le _⟩
  rw [← always_congr (handler passwdList) (P := fun s ev => InBuffer (handler passwdList s ev))
    (I := fun s => s.pos = s.sent.length ∧ InBuffer s) (fun s ev hI => inBuffer_step hI.1 hI.2)
    (fun s ev hI hP => ⟨pos_eq_sent hI.1, hP⟩) evs ⟨rfl, hinit⟩, always_iff]
  constructor
  · intro h as ev bs he
    have hin := h (as ++ [ev]) bs (by rw [he, List.append_assoc]; rfl)
    rwa [run_concat] at hin
  · intro h as bs he
    rcases List.eq_nil_or_concat as with rfl | ⟨as, ev, rfl⟩
    · exact hinit
    · rw [List.concat_eq_append] at he ⊢
      rw [run_concat]
      exact h as ev bs (by rw [he, List.append_assoc]; rfl)

/-- A greeting and then `n` requests of a command that is not supported, each answer taken whole. -/
def refusedRequests (n : Nat) : List Event :=
  .data [socks5Version, 0] ⟨.took 2, true, true⟩ ::
    List.replicate n (.data [socks5Version, 2, 0, socks5Ipv4] ⟨.took 4, true, true⟩)

/-- The answer to the 25th of them is written behind the buffer. -/
theorem refusedRequests_overflow :
    ¬ ∀ (passwdList : Option PasswdList) (inMem outMem : Mem) (evs as bs : List Event), evs = as ++ bs →
      InBuffer (run (handler passwdList) (init inMem outMem) as) := by
  intro h
  have htop := (h none (Stream'.const 0) (Stream'.const 0) (refusedRequests 25) (refusedRequests 25) []
    (List.append_nil _).symm).top
  have hover : (run (handler none) (init (Stream'.const 0) (Stream'.const 0)) (refusedRequests 25)).top = 102 := by
    decide +kernel
  rw [hover] at htop
  exact absurd htop (by decide)

end NgxPlus.Socks5.Handshake
