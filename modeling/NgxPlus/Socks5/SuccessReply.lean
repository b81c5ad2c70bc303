import NgxPlus.Socks5.Cutting

/-!
# What the success reply names (`ngx_stream_socks5_module.c`)

Two places build the reply of ten bytes behind the header that `received` wrote. For an IPv4
address (`:456-461`) the address goes to `out->pos + 4` and the port to `out->pos + 8`. The
callback of the resolver (`:863-873`) copies the address to `out->last + 4` where `out->last`
is `out->pos + 4` already, and the port over it: the four bytes behind the header stay what the
buffer held, and the header is whatever lies there when the name comes back.

`connect_reply_iff` says that the first reply is right in every session and when the second is.
-/

namespace NgxPlus.Socks5.Handshake

open ByteMem Trace

/-- `05 00 00 01`, the address and the port. -/
def successReply (addr : InAddr) (port : InPort) : Bytes := header ++ addr.1 ++ port.1

/-- The reply is the one for the address and port that the proxy connects to. -/
structure Named (s s' : Handshake) (addr : InAddr) (port : InPort) : Prop where
  reply : s'.out = s.out ++ [successReply addr port]
  connects : s'.closed = false → s'.connects = s.connects ++ [(addr, port)]

/-- The session takes requests. -/
structure Serving (s : Handshake) : Prop where
  isOpen : s.closed = false
  authed : s.authed = true
  waiting : s.downstream = false

/-- With `bs`, the buffer holds the whole of a request. -/
structure Complete (s : Handshake) (bs : Bytes) (r : ConnectRequest) (extra : Bytes) : Prop where
  arrives : s.room bs ≠ []
  bytes : s.pending ++ s.room bs = r.bytes ++ extra

/-! ## Fields -/

@[simp] theorem out_send (s : Handshake) (send : Sent) : (s.ngxSocks5Send send).out = s.out := by
  unfold ngxSocks5Send
  split
  · rfl
  · cases send <;> rfl

@[simp] theorem out_rearm (s : Handshake) (armed : Bool) : (s.rearm armed).out = s.out := by
  unfold rearm
  split <;> rfl

@[simp] theorem out_connect (s : Handshake) : s.connect.out = s.out := by
  unfold connect
  split <;> rfl

/-- What `connect` goes by. -/
def peer (s : Handshake) : List (InAddr × InPort) × InAddr × InPort := (s.connects, s.sinAddr, s.sinPort)

@[simp] theorem peer_put (s : Handshake) (off : Nat) (bs : Bytes) : (s.put off bs).peer = s.peer := rfl

@[simp] theorem peer_send (s : Handshake) (send : Sent) : (s.ngxSocks5Send send).peer = s.peer := by
  unfold ngxSocks5Send
  split
  · rfl
  · cases send <;> rfl

@[simp] theorem peer_answer (s : Handshake) (n : Nat) (mem : Mem) (send : Sent) : (s.answer n mem send).peer = s.peer :=
  peer_send ..

@[simp] theorem peer_rearm (s : Handshake) (armed : Bool) : (s.rearm armed).peer = s.peer := by
  unfold rearm
  split <;> rfl

/-- An open session is connected to where `r_addr` says. -/
theorem connects_connect {s : Handshake} {cs : List (InAddr × InPort)} {addr : InAddr} {port : InPort}
    (h : s.peer = (cs, addr, port)) (hopen : s.connect.closed = false) : s.connect.connects = cs ++ [(addr, port)] := by
  obtain ⟨h1, h2⟩ := Prod.mk.inj h
  obtain ⟨h2, h3⟩ := Prod.mk.inj h2
  unfold connect at hopen ⊢
  split
  · rename_i hc
    rw [if_pos hc, hc] at hopen
    cases hopen
  · simp only [h1, h2, h3]

/-- `05 01 00 01`. -/
def ipv4Head : Bytes := [socks5Version, socks5CmdConnect, 0, socks5Ipv4]

/-- `05 01 00 03` and the length. -/
def domainHead (name : Bytes) : Bytes := [socks5Version, socks5CmdConnect, 0, socks5Domain, UInt8.ofNat name.length]

/-! ## The two replies -/

/-- Header, address and port in their places. -/
theorem take_three (m : Mem) (pos : Nat) (addr : InAddr) (port : InPort) :
    ((write (write (write m pos header) (pos + 4) addr.1) (pos + 8) port.1).drop pos).take 10 =
      successReply addr port := by
  have hfour (x : Mem) : (header ++ₛ x).take 4 = header := take_append_of_eq _ _ rfl
  have height (x : Mem) : (header ++ addr.1 ++ₛ x).take 8 = header ++ addr.1 :=
    take_append_of_eq _ _ (by simp [header, addr.2])
  rw [drop_write_add, drop_write_add, drop_write, write, write, hfour, height]
  exact take_append_of_eq _ _ (by simp [header, addr.2, port.2])

/-- The port over the address. -/
theorem take_over (m : Mem) (pos : Nat) (addr : InAddr) (port : InPort) :
    ((write (write m (pos + 8) addr.1) (pos + 8) port.1).drop pos).take 10 = (m.drop pos).take 8 ++ port.1 := by
  rw [drop_write_add, drop_write_add, write, take_write _ _ le_rfl]
  exact take_append_of_eq _ _ (by simp [port.2])

theorem successReply_eq_iff {m : Mem} {pos : Nat} {addr : InAddr} {port : InPort} :
    (m.drop pos).take 8 ++ port.1 = successReply addr port ↔ (m.drop pos).take 8 = header ++ addr.1 := by
  rw [successReply, List.append_left_inj]

section Handler

variable (passwdList : Option PasswdList) {s : Handshake}

/-- The callback in any state. -/
theorem named_resolved_iff (hopen : s.closed = false) (hres : s.resolving ≠ 0) (addr : InAddr) (send : Sent) :
    Named s (handler passwdList s (.resolved (some addr) send)) addr s.sinPort ↔
      (s.outMem.drop s.pos).take 8 = header ++ addr.1 := by
  have hstep : handler passwdList s (.resolved (some addr) send) = s.resolved addr send := by
    simp [handler, hopen, hres]
  have hout : (s.resolved addr send).out = s.out ++ [(s.outMem.drop s.pos).take 8 ++ s.sinPort.1] := by
    simp only [resolved, out_connect, out_send, outMem_put, pos_put, toSession_put, take_over]
  rw [hstep, ← @successReply_eq_iff _ _ addr s.sinPort]
  constructor
  · rintro ⟨hreply, -⟩
    rw [hout, List.append_right_inj] at hreply
    exact List.singleton_inj.1 hreply
  · intro h
    refine ⟨by rw [hout, h], fun hc => connects_connect ?_ hc⟩
    rw [peer_send]
    rfl

variable (hs : Serving s) {r : ConnectRequest} {bs extra : Bytes} (h : Complete s bs r extra) (ans : Answers)
include hs h

/-- A complete request is looked at. -/
theorem handler_request :
    handler passwdList s (.data bs ans) = (s.arrived (s.room bs)).request ans ∧
      (s.arrived (s.room bs)).mem = r.bytes ++ₛ (extra ++ₛ s.behind.drop (s.room bs).length) := by
  have hlen : sizeofRequest ≤ (s.pending ++ s.room bs).length := by
    rw [h.bytes, List.length_append]
    exact r.four_le_length.trans (Nat.le_add_right _ _)
  rw [handler_data hs.isOpen hs.waiting, if_neg h.arrives, received_request hs.authed hlen]
  refine ⟨rfl, ?_⟩
  rw [← Stream'.append_append_stream, ← h.bytes]
  rfl

end Handler

section Requests

variable (passwdList : Option PasswdList) {s : Handshake} (hs : Serving s) {bs : Bytes} {port : InPort} {extra : Bytes}
  (ans : Answers)
include hs

/-- An IPv4 address is named as it was asked for. -/
theorem named_ipv4 {addr : InAddr} (h : Complete s bs ⟨.ipv4 addr, port⟩ extra) :
    Named s (handler passwdList s (.data bs ans)) addr port := by
  obtain ⟨hstep, hmem⟩ := handler_request passwdList hs h ans
  have hbytes (x : Mem) : (ConnectRequest.mk (.ipv4 addr) port).bytes ++ₛ x =
      ipv4Head ++ₛ (addr.1 ++ₛ (port.1 ++ₛ x)) := by
    simp only [ConnectRequest.bytes, Target.bytes, ipv4Head, ← Stream'.append_append_stream,
      List.cons_append, List.nil_append]
  rw [hbytes] at hmem
  have haddr : inAddrAt (s.arrived (s.room bs)).mem 4 = addr := by
    refine Subtype.ext ?_
    rw [inAddrAt, hmem]
    simp only [drop_append_of_eq ipv4Head _ (show ipv4Head.length = 4 from rfl), take_append_of_eq _ _ addr.2]
  have hport : inPortAt (s.arrived (s.room bs)).mem 8 = port := by
    refine Subtype.ext ?_
    rw [inPortAt, hmem]
    simp only [← Stream'.append_append_stream ipv4Head, drop_append_of_eq (ipv4Head ++ addr.1) _
      (show (ipv4Head ++ addr.1).length = 8 by simp [ipv4Head, addr.2]), take_append_of_eq _ _ port.2]
  have h0 : (s.arrived (s.room bs)).mem.get 0 = socks5Version := by rw [hmem]; rfl
  have h1 : (s.arrived (s.room bs)).mem.get 1 = socks5CmdConnect := by rw [hmem]; rfl
  have h3 : (s.arrived (s.room bs)).mem.get 3 = socks5Ipv4 := by rw [hmem]; rfl
  rw [hstep, request]
  simp only [h0, h1, h3, ne_eq, not_true_eq_false, or_self, if_false, if_true, haddr, hport]
  constructor
  · simp only [out_connect, out_rearm, answer, out_send]
    simp only [outMem_put, pos_put, outMem_arrived, pos_arrived]
    exact congrArg (fun b => s.out ++ [b]) (take_three s.outMem s.pos addr port)
  · intro hc
    refine connects_connect ?_ hc
    rw [peer_rearm, peer_answer, peer_put, peer_put]
    rfl

/-- A name is passed on, behind a header and with its port. -/
theorem request_name {name : Bytes} {len : name.length < 256} (hresolver : ans.resolver = true)
    (h : Complete s bs ⟨.domain name len, port⟩ extra) :
    (handler passwdList s (.data bs ans)).closed = false ∧ (handler passwdList s (.data bs ans)).resolving ≠ 0 ∧
      (handler passwdList s (.data bs ans)).sinPort = port ∧
      (handler passwdList s (.data bs ans)).pos = s.pos ∧
      (handler passwdList s (.data bs ans)).outMem = write s.outMem s.pos header := by
  obtain ⟨hstep, hmem⟩ := handler_request passwdList hs h ans
  have hbytes (x : Mem) : (ConnectRequest.mk (.domain name len) port).bytes ++ₛ x =
      domainHead name ++ₛ (name ++ₛ (port.1 ++ₛ x)) := by
    simp only [ConnectRequest.bytes, Target.bytes, domainHead, ← Stream'.append_append_stream,
      List.cons_append, List.nil_append]
  rw [hbytes] at hmem
  have h0 : (s.arrived (s.room bs)).mem.get 0 = socks5Version := by rw [hmem]; rfl
  have h1 : (s.arrived (s.room bs)).mem.get 1 = socks5CmdConnect := by rw [hmem]; rfl
  have h3 : (s.arrived (s.room bs)).mem.get 3 = socks5Domain := by rw [hmem]; rfl
  have h4 : ((s.arrived (s.room bs)).mem.get 4).toNat = name.length := by
    rw [hmem]
    change (UInt8.ofNat name.length).toNat = name.length
    rw [UInt8.toNat_ofNat', Nat.mod_eq_of_lt len]
  have hlen : (domainHead name ++ name).length = 5 + name.length := List.length_append
  have hport : inPortAt (s.arrived (s.room bs)).mem (5 + name.length) = port := by
    refine Subtype.ext ?_
    rw [inPortAt, hmem, ← Stream'.append_append_stream]
    simp only [drop_append_of_eq _ _ hlen, take_append_of_eq _ _ port.2]
  have hne : socks5Domain ≠ socks5Ipv4 := by decide
  rw [hstep, request]
  simp only [h0, h1, h3, ne_eq, not_true_eq_false, or_self, if_false, if_neg hne, if_true, hresolver, h4, hport]
  exact ⟨hs.isOpen, Nat.succ_ne_zero _, trivial, rfl, rfl⟩

end Requests

/-- The reply of the callback when nothing has come in between. -/
theorem take_header_iff {m : Mem} {pos : Nat} {addr : InAddr} :
    ((write m pos header).drop pos).take 8 = header ++ addr.1 ↔ (m.drop (pos + 4)).take 4 = addr.1 := by
  have hsplit (x : Mem) : (header ++ₛ x).take 8 = header ++ x.take 4 := rfl
  have hlen : header.length = 4 := rfl
  rw [drop_write, hlen, hsplit, List.append_right_inj]

/-- **The success reply names the address** on the way of an IPv4 address always, and on the way of a name exactly where
the reply buffer holds header and address already when the name comes back. -/
theorem connect_reply_iff (passwdList : Option PasswdList) {s : Handshake} (hs : Serving s) (bs : Bytes) (port : InPort)
    (extra : Bytes) (ans : Answers) :
    (∀ addr, Complete s bs ⟨.ipv4 addr, port⟩ extra → Named s (handler passwdList s (.data bs ans)) addr port) ∧
    (∀ name len, ans.resolver = true → Complete s bs ⟨.domain name len, port⟩ extra → ∀ addr send,
      (let asked := handler passwdList s (.data bs ans)
       Named asked (handler passwdList asked (.resolved (some addr) send)) addr port ↔
        (s.outMem.drop (s.pos + 4)).take 4 = addr.1) ∧
      ∀ evs, let later := run (handler passwdList) s (.data bs ans :: evs)
       later.closed = false → later.resolving ≠ 0 →
        (Named later (handler passwdList later (.resolved (some addr) send)) addr later.sinPort ↔
          (later.outMem.drop later.pos).take 8 = header ++ addr.1)) := by
  refine ⟨fun addr h => named_ipv4 passwdList hs ans h, fun name len hresolver h addr send => ⟨?_, ?_⟩⟩
  · obtain ⟨hopen, hres, hport, hpos, hmem⟩ := request_name passwdList hs ans hresolver h
    have hnamed := named_resolved_iff passwdList hopen hres addr send
    rwa [hport, hpos, hmem, take_header_iff] at hnamed
  · intro evs later hopen hres
    exact named_resolved_iff passwdList hopen hres addr send

/-- A session that is let in, with what its reply buffer holds. -/
def letIn (outMem : Mem) : Handshake := { init (Stream'.const 0) outMem with authed := true }

theorem serving_letIn (outMem : Mem) : Serving (letIn outMem) := ⟨rfl, rfl, rfl⟩

/-- Port 80 of `a.b`. -/
def nameRequest : ConnectRequest := ⟨.domain [0x61, 0x2e, 0x62] (by decide), ⟨[0, 80], length_portBytes⟩⟩

theorem complete_nameRequest (outMem : Mem) : Complete (letIn outMem) nameRequest.bytes nameRequest [] :=
  ⟨List.cons_ne_nil _ _, rfl⟩

/-- Both replies, the second of a buffer that holds the address already. -/
theorem connect_reply_tenRequest :
    Named (letIn (Stream'.const 0)) (handler none (letIn (Stream'.const 0)) (.data tenRequest.bytes (fine 10 true)))
      ⟨[10, 0, 0, 1], rfl⟩ ⟨[0, 80], rfl⟩ ∧
    Named (handler none (letIn (Stream'.const 10)) (.data nameRequest.bytes (fine 10 true)))
      (handler none (handler none (letIn (Stream'.const 10)) (.data nameRequest.bytes (fine 10 true)))
        (.resolved (some ⟨[10, 10, 10, 10], rfl⟩) (.took 10))) ⟨[10, 10, 10, 10], rfl⟩ ⟨[0, 80], rfl⟩ :=
  ⟨(connect_reply_iff none (serving_letIn _) tenRequest.bytes _ [] (fine 10 true)).1 _ ⟨List.cons_ne_nil _ _, rfl⟩,
    (((connect_reply_iff none (serving_letIn _) nameRequest.bytes _ [] (fine 10 true)).2 _ _ rfl
      (complete_nameRequest _) _ _).1).2 rfl⟩

/-- The four bytes behind the header are those of the new buffer. -/
theorem name_unnamed :
    ¬ ∀ (passwdList : Option PasswdList) (s : Handshake), Serving s → ∀ (bs : Bytes) (port : InPort) (extra : Bytes)
      (ans : Answers),
      (∀ addr, Complete s bs ⟨.ipv4 addr, port⟩ extra → Named s (handler passwdList s (.data bs ans)) addr port) ∧
      ∀ name len, ans.resolver = true → Complete s bs ⟨.domain name len, port⟩ extra → ∀ addr send,
        Named (handler passwdList s (.data bs ans))
          (handler passwdList (handler passwdList s (.data bs ans)) (.resolved (some addr) send)) addr port := by
  intro h
  have hnamed := (h none (letIn (Stream'.const 0)) (serving_letIn _) nameRequest.bytes _ [] (fine 10 true)).2 _ _ rfl
    (complete_nameRequest _) ⟨[10, 0, 0, 1], rfl⟩ (.took 10)
  have hreply : [[5, 0, 0, 1, 0, 0, 0, 0, 0, 80]] = [successReply ⟨[10, 0, 0, 1], rfl⟩ ⟨[0, 80], rfl⟩] := hnamed.reply
  exact absurd hreply (by decide)

end NgxPlus.Socks5.Handshake
