import NgxPlus.Socks5.Reads

/-!
# A client that some cutting lets in (`ngx_stream_socks5_module.c`)

`EveryCutting`: all cuttings of two messages have one outcome, whatever the new buffers hold. It fails
where a client is let in behind the first two bytes of its first message with some bytes in the buffer:

* `not_everyCutting_of_accepts`: behind a message of three bytes or more, the reads are brought to its
  last byte (`exists_cut`), and the request comes behind that;
* `not_everyCutting_of_bare`: behind a greeting without methods, the request is looked at behind its fourth
  byte with what is in the buffer.
-/

namespace NgxPlus.Socks5.Handshake

open ByteMem Trace

/-! ## A client that some cutting lets in -/

section Property

variable (passwdList : Option PasswdList) (f : First) (r : ConnectRequest)

/-- All cuttings of the two messages that a new session can read have one outcome. -/
def EveryCutting : Prop :=
  ∀ (inMem outMem : Mem) (n : Nat) (resolver : Bool) (c c' : Cutting f.bytes) (d d' : Cutting r.bytes),
    Always (handler passwdList) HasPlace (init inMem outMem) (dataEvents (c.reads ++ d.reads) (fine n resolver)) →
    Always (handler passwdList) HasPlace (init inMem outMem) (dataEvents (c'.reads ++ d'.reads) (fine n resolver)) →
      outcomeOf passwdList inMem outMem c d (fine n resolver) =
        outcomeOf passwdList inMem outMem c' d' (fine n resolver)

variable {passwdList f r}

theorem EveryCutting.outcome_eq (h : EveryCutting passwdList f r) {inMem outMem : Mem} {n : Nat} {resolver : Bool}
    {c c' : Cutting f.bytes} {d d' : Cutting r.bytes} {s s' : Handshake}
    (hs : Leads passwdList (fine n resolver) (init inMem outMem) (c.reads ++ d.reads) s)
    (hs' : Leads passwdList (fine n resolver) (init inMem outMem) (c'.reads ++ d'.reads) s') :
    s.outcome = s'.outcome := by
  have hsame := h inMem outMem n resolver c c' d d' hs.2 hs'.2
  rw [outcomeOf, outcomeOf, hs.1, hs'.1] at hsame
  exact hsame

/-- A session that is authenticated inside the first message, in front of `w` and `x`, is brought to `x`. -/
theorem not_everyCutting_of_idle {inMem outMem : Mem} (n : Nat) (resolver : Bool) {reads : List Bytes} {w : Bytes}
    {x : UInt8} {s : Handshake} (hflat : f.bytes = reads.flatten ++ w ++ [x]) (hw : w = [] ∨ Refused w)
    (hreads : ∀ bs ∈ reads, bs ≠ []) (hs : Leads passwdList (fine n resolver) (init inMem outMem) reads s)
    (hidle : Idle true s) :
    ¬ EveryCutting passwdList f r := by
  obtain ⟨chunks, hchunks, hall⟩ :
      ∃ chunks : List Bytes, chunks.flatten = w ∧ ∀ y ∈ chunks, Refused y ∧ y.length ≤ 8 := by
    rcases hw with rfl | hw
    · exact ⟨[], rfl, by simp⟩
    · obtain ⟨chunks, -, hchunks, hall⟩ := exists_refused w hw
      exact ⟨chunks, hchunks, hall⟩
  obtain ⟨s', hs', hidle', -⟩ := leads_refused passwdList n resolver hidle hall
  have hfit : (s'.pending ++ [x]).length < sizeofRequest := by
    rw [hidle'.pending]
    exact Nat.succ_lt_succ (Nat.zero_lt_succ _)
  have hlast : Leads passwdList (fine n resolver) s' [[x]] (s'.arrived [x]) := by
    have harmed : (fine n resolver).armed = true := rfl
    have hone : Leads passwdList (fine n resolver) s' [[x]] (received passwdList s' [x] (fine n resolver)) :=
      leads_one hidle'.closed hidle'.downstream (List.cons_ne_nil x []) (le_trans hfit.le (by decide))
    rwa [received_waits (by rwa [minimum_of_authed hidle'.authed]), rearm, if_pos harmed] at hone
  obtain ⟨d, d', s₁, s₂, hd, hd', hne⟩ := differ_behind passwdList n resolver (s := s'.arrived [x])
    hidle'.closed hidle'.downstream hidle'.authed (x := x)
    (by rw [toSession_arrived, hidle'.pending, List.nil_append]) r
  have hc : ∀ bs ∈ reads ++ chunks ++ [[x]], bs ≠ [] := by
    intro bs hbs
    rw [List.mem_append, List.mem_append, List.mem_singleton] at hbs
    rcases hbs with (hbs | hbs) | rfl
    · exact hreads bs hbs
    · exact (hall bs hbs).1.ne_nil
    · exact List.cons_ne_nil _ _
  let c : Cutting f.bytes := ⟨reads ++ chunks ++ [[x]], by simp [hflat, hchunks], hc⟩
  have hcut : Leads passwdList (fine n resolver) (init inMem outMem) c.reads (s'.arrived [x]) :=
    (hs.append hs').append hlast
  intro h
  have hsame := h.outcome_eq (hcut.append hd) (hcut.append hd')
  exact hne (congrArg (fun o => o.1.length) hsame)

/-- Some reads of the first message, and single bytes from there on. -/
theorem exists_cutting {reads : List Bytes} {w : Bytes} (hflat : f.bytes = reads.flatten ++ w)
    (hreads : ∀ bs ∈ reads, bs ≠ []) :
    ∃ (c : Cutting f.bytes) (d : Cutting r.bytes), c.reads ++ d.reads = reads ++ singles (w ++ r.bytes) := by
  refine ⟨⟨reads ++ singles w, ?_, ?_⟩, ⟨singles r.bytes, flatten_singles _, fun _ => singles_ne_nil⟩, ?_⟩
  · rw [List.flatten_append, flatten_singles, hflat]
  · intro bs hbs
    rcases List.mem_append.1 hbs with hbs | hbs
    · exact hreads bs hbs
    · exact singles_ne_nil hbs
  · rw [List.append_assoc, ← singles_append]

/-- The rest of the stream is read in single bytes. -/
theorem exists_rest {ans : Answers} {inMem outMem : Mem} {reads : List Bytes} {w : Bytes} {s : Handshake}
    (hflat : f.bytes = reads.flatten ++ w) (hreads : ∀ bs ∈ reads, bs ≠ [])
    (hs : Leads passwdList ans (init inMem outMem) reads s) (hwaits : s.Waits) :
    ∃ (c : Cutting f.bytes) (d : Cutting r.bytes), Leads passwdList ans (init inMem outMem) (c.reads ++ d.reads)
      (run (handler passwdList) s (dataEvents (singles (w ++ r.bytes)) ans)) := by
  obtain ⟨c, d, hcd⟩ := exists_cutting (r := r) hflat hreads
  refine ⟨c, d, ?_⟩
  rw [hcd]
  exact hs.append ⟨rfl, always_singles hwaits _⟩

/-- What two runs that go on from there have said is the same. -/
theorem EveryCutting.adds_eq (h : EveryCutting passwdList f r) {inMem outMem : Mem} {n : Nat}
    {reads reads' : List Bytes} (w w' : Bytes) {s s' : Handshake} (hflat : f.bytes = reads.flatten ++ w)
    (hreads : ∀ bs ∈ reads, bs ≠ [])
    (hs : Leads passwdList (fine n true) (init inMem outMem) reads s) (hwaits : s.Waits)
    (hflat' : f.bytes = reads'.flatten ++ w') (hreads' : ∀ bs ∈ reads', bs ≠ [])
    (hs' : Leads passwdList (fine n true) (init inMem outMem) reads' s') (hwaits' : s'.Waits) :
    ∃ e e', Adds s e ∧ Adds s' e' ∧ e.outcome = e'.outcome := by
  obtain ⟨c, d, hrun⟩ := exists_rest (r := r) hflat hreads hs hwaits
  obtain ⟨c', d', hrun'⟩ := exists_rest (r := r) hflat' hreads' hs' hwaits'
  exact ⟨_, _, run_adds rfl s _, run_adds rfl s' _, h.outcome_eq hrun hrun'⟩

theorem exists_seven {bs : Bytes} (hlong : 7 ≤ bs.length) :
    ∃ a b c d e g h t, bs = a :: b :: c :: d :: e :: g :: h :: t := by
  rcases bs with _ | ⟨a, _ | ⟨b, _ | ⟨c, _ | ⟨d, _ | ⟨e, _ | ⟨g, _ | ⟨h, t⟩⟩⟩⟩⟩⟩⟩
  iterate 7 exact absurd hlong (by simp)
  exact ⟨a, b, c, d, e, g, h, t, rfl⟩

/-- The first message up to its last byte: a first read, and requests that are refused. -/
theorem exists_cut {bs : Bytes} (h : 3 ≤ bs.length) :
    ∃ v w x, bs = v ++ w ++ [x] ∧ 2 ≤ v.length ∧ v.length ≤ ngxSocksAuthBufferLen ∧ (w = [] ∨ Refused w) := by
  obtain ⟨bs, x, rfl⟩ : ∃ bs' x, bs = bs' ++ [x] := by
    have hne : bs ≠ [] := by
      rintro rfl
      exact absurd h (by decide)
    exact ⟨bs.dropLast, bs.getLast hne, (List.dropLast_append_getLast hne).symm⟩
  rw [List.length_append, List.length_singleton] at h
  by_cases hshort : bs.length ≤ ngxSocksAuthBufferLen
  · exact ⟨bs, [], x, by rw [List.append_nil], by omega, hshort, Or.inl rfl⟩
  · have hlong : 7 ≤ bs.length := by
      rw [ngxSocksAuthBufferLen] at hshort
      omega
    obtain ⟨a, b, c, d, e, g, i, t, rfl⟩ := exists_seven hlong
    by_cases hfive : c = socks5Version ∧ d = socks5CmdConnect
    · refine ⟨[a, b, c], d :: e :: g :: i :: t, x, rfl, by simp, by simp [ngxSocksAuthBufferLen], Or.inr ?_⟩
      rintro ⟨hd, -⟩
      rw [hfive.2] at hd
      exact absurd hd (by decide)
    · exact ⟨[a, b], c :: d :: e :: g :: i :: t, x, rfl, by simp, by simp [ngxSocksAuthBufferLen], Or.inr hfive⟩

theorem forall_mem_one {u : Bytes} (h2 : 2 ≤ u.length) : ∀ bs ∈ [u], bs ≠ [] := by
  intro bs hbs
  rw [List.mem_singleton.1 hbs]
  rintro rfl
  exact absurd h2 (by decide)

/-- The first look at the first message. -/
theorem leads_first (passwdList : Option PasswdList) (inMem outMem : Mem) (n : Nat) (resolver : Bool) {v : Bytes}
    (h2 : 2 ≤ v.length) (hfit : v.length ≤ ngxSocksAuthBufferLen) (h1 : passwdList = none ∨ v.head? = some 1) :
    ∃ s, Leads passwdList (fine n resolver) (init inMem outMem) [v] s ∧
      Idle (accepts passwdList (v ++ₛ inMem.drop v.length)) s ∧
      ∃ ver, s.out = [[ver, if accepts passwdList (v ++ₛ inMem.drop v.length) then 0x00 else 0xff]] := by
  have hne := forall_mem_one h2 v List.mem_cons_self
  obtain ⟨hidle, hout⟩ := idle_authenticated passwdList n resolver (s := init inMem outMem) v rfl rfl rfl h2 h1
  exact ⟨_, leads_one rfl rfl hne hfit, hidle, _, hout⟩

/-- **A client that is let in** behind its first two bytes, with some bytes in the buffer. -/
theorem not_everyCutting_of_accepts (h3 : 3 ≤ f.bytes.length) (h1 : passwdList = none ∨ f.bytes.head? = some 1)
    {m : Mem} (h : accepts passwdList (f.bytes.take 2 ++ₛ m) = true) : ¬ EveryCutting passwdList f r := by
  obtain ⟨v, w, x, hflat, hv2, hvfit, hw⟩ := exists_cut h3
  have hlen2 : (f.bytes.take 2).length = 2 := List.length_take_of_le (by omega)
  have hhead2 : (f.bytes.take 2).head? = f.bytes.head? := by
    rw [List.head?_take, if_neg (by decide)]
  have hheadv : v.head? = f.bytes.head? := by
    rw [hflat, List.append_assoc]
    cases v with
    | nil => exact absurd hv2 (by decide)
    | cons y v => rfl
  obtain ⟨s, hs, hidle, ver, hout⟩ := leads_first passwdList (f.bytes.take 2 ++ₛ m) m 0 true
    hlen2.ge (by rw [hlen2]; decide) (by rwa [hhead2])
  obtain ⟨s', hs', hidle', ver', hout'⟩ := leads_first passwdList (f.bytes.take 2 ++ₛ m) m 0 true
    hv2 hvfit (by rwa [hheadv])
  rw [drop_append_of_eq _ _ rfl, h] at hidle hout
  cases haccepts : accepts passwdList (v ++ₛ (f.bytes.take 2 ++ₛ m).drop v.length) with
  | true =>
    rw [haccepts] at hidle'
    exact not_everyCutting_of_idle 0 true (w := w) (x := x) (by rw [hflat]; simp) hw (forall_mem_one hv2) hs' hidle'
  | false =>
    rw [haccepts] at hout'
    intro hevery
    obtain ⟨e, e', hadds, hadds', heq⟩ := hevery.adds_eq (f.bytes.drop 2) (w ++ [x]) (by simp)
      (forall_mem_one hlen2.ge) hs (waits_of_nil hidle.pending) (by simp [hflat]) (forall_mem_one hv2) hs'
      (waits_of_nil hidle'.pending)
    obtain ⟨t, u, hsaid⟩ := hadds
    obtain ⟨t', u', hsaid'⟩ := hadds'
    have hbytes := congrArg Prod.fst heq
    simp only [outcome, (Prod.mk.inj hsaid).1, (Prod.mk.inj hsaid').1, hout, hout'] at hbytes
    simp at hbytes

end Property

/-! ## A greeting without methods -/

section Bare

variable {s : Handshake} {b : UInt8}

/-- The first bytes of a request, in a buffer of `b`. -/
theorem leads_request (hs : Idle true s) (hbehind : s.behind.drop 2 = Stream'.const b) (bs : Bytes) (h4 : 4 ≤ bs.length)
    (hfit : bs.length ≤ ngxSocksAuthBufferLen) :
    Leads none (fine 0 true) s [bs] ((s.arrived bs).request (fine 0 true)) ∧
      (s.arrived bs).mem = bs ++ₛ Stream'.const b := by
  have hpending : s.pending ++ bs = bs := by rw [hs.pending, List.nil_append]
  have hne : bs ≠ [] := by
    rintro rfl
    exact absurd h4 (by decide)
  constructor
  · rw [← received_request hs.authed (by rwa [hpending])]
    exact leads_one hs.closed hs.downstream hne (by rwa [hpending])
  · obtain ⟨k, hk⟩ : ∃ k, bs.length = k + 2 := ⟨bs.length - 2, by omega⟩
    show s.pending ++ bs ++ₛ s.behind.drop bs.length = _
    rw [hpending, hk, Nat.add_comm, ← Stream'.drop_drop, hbehind, Stream'.drop_const]

/-- Behind a connect the handshake reads nothing more. -/
theorem leads_downstream (hc : s.closed = false) (hd : s.downstream = true) (reads : List Bytes) :
    Leads none (fine 0 true) s reads s := by
  induction reads with
  | nil => exact leads_nil
  | cons bs reads ih =>
    have hone : Leads none (fine 0 true) s [bs] s := by
      refine ⟨by simp [dataEvents, handler, hc, hd], ?_, trivial⟩
      intro _ h
      rw [hd] at h
      cases h
    exact hone.append ih

end Bare

section Targets

variable {s : Handshake}

/-- What an answer leaves as it was. -/
theorem kept_answer (n k : Nat) (mem : Mem) :
    ((s.answer n mem (.took k)).rearm true).closed = s.closed ∧
      ((s.answer n mem (.took k)).rearm true).connects = s.connects ∧
      ((s.answer n mem (.took k)).rearm true).queries = s.queries ∧
      ((s.answer n mem (.took k)).rearm true).sinAddr = s.sinAddr ∧
      ((s.answer n mem (.took k)).rearm true).sinPort = s.sinPort := by
  rw [rearm, if_pos rfl, answer, ngxSocks5Send]
  split
  · exact ⟨rfl, rfl, rfl, rfl, rfl⟩
  · exact ⟨rfl, rfl, rfl, rfl, rfl⟩

theorem connect_answer (hc : s.closed = false) (n k : Nat) (mem : Mem) :
    ((s.answer n mem (.took k)).rearm true).connect.closed = false ∧
      ((s.answer n mem (.took k)).rearm true).connect.downstream = true ∧
      ((s.answer n mem (.took k)).rearm true).connect.connects = s.connects ++ [(s.sinAddr, s.sinPort)] := by
  obtain ⟨hclosed, hconnects, -, haddr, hport⟩ := kept_answer (s := s) n k mem
  have hopen : ¬ ((s.answer n mem (.took k)).rearm true).closed = true := by
    rw [hclosed, hc]
    exact Bool.false_ne_true
  rw [connect, if_neg hopen]
  refine ⟨hclosed.trans hc, rfl, ?_⟩
  show _ ++ [(_, _)] = _
  rw [hconnects, haddr, hport]

section Connect

variable (h0 : s.mem.get 0 = socks5Version) (h1 : s.mem.get 1 = socks5CmdConnect)
include h0 h1

theorem is_connect : ¬ (s.mem.get 0 ≠ socks5Version ∨ s.mem.get 1 ≠ socks5CmdConnect) := by
  rintro (h | h)
  · exact h h0
  · exact h h1

/-- The connect of an IPv4 request. -/
theorem request_ipv4 (hc : s.closed = false) (h3 : s.mem.get 3 = socks5Ipv4) :
    (s.request (fine 0 true)).closed = false ∧ (s.request (fine 0 true)).downstream = true ∧
      (s.request (fine 0 true)).connects = s.connects ++ [(inAddrAt s.mem 4, inPortAt s.mem 8)] := by
  simp only [request]
  rw [if_neg (is_connect h0 h1), if_pos h3]
  exact connect_answer (s := ({ s with sinAddr := inAddrAt s.mem 4, sinPort := inPortAt s.mem 8 }.put (s.pos + 4)
    (inAddrAt s.mem 4).1).put (s.pos + 8) (inPortAt s.mem 8).1) hc 10 0 s.mem

/-- The name is given to the resolver. -/
theorem request_domain (h3 : s.mem.get 3 = socks5Domain) :
    (s.request (fine 0 true)).pending = [] ∧
      (s.request (fine 0 true)).queries =
        s.queries ++ [((s.mem.drop 5).take (s.mem.get 4).toNat, inPortAt s.mem (5 + (s.mem.get 4).toNat))] := by
  have hnot : ¬ s.mem.get 3 = socks5Ipv4 := by
    rw [h3]
    decide
  have hresolver : (fine 0 true).resolver = true := rfl
  simp only [request]
  rw [if_neg (is_connect h0 h1), if_neg hnot, if_pos h3, if_pos hresolver]
  exact ⟨rfl, rfl⟩

theorem request_ipv6 (hc : s.closed = false) (hd : s.downstream = false) (hs : s.authed = true)
    (h3 : s.mem.get 3 = socks5Ipv6) :
    Idle true (s.request (fine 0 true)) ∧ (s.request (fine 0 true)).out.flatten.length = s.out.flatten.length + 4 ∧
      (s.request (fine 0 true)).queries = s.queries := by
  have hnot : ¬ s.mem.get 3 = socks5Ipv4 := by
    rw [h3]
    decide
  have hnot' : ¬ s.mem.get 3 = socks5Domain := by
    rw [h3]
    decide
  simp only [request]
  rw [if_neg (is_connect h0 h1), if_neg hnot, if_neg hnot']
  obtain ⟨hidle, hout⟩ := idle_notSupported 0 hc hd hs s.mem
  exact ⟨hidle, hout, (kept_answer 4 0 s.mem).2.2.1⟩

end Connect

end Targets

section Forms

variable {b : UInt8} (hs : Idle true s) (hbehind : s.behind.drop 2 = Stream'.const b)
include hs hbehind

/-- A request for an IPv4 address, of which the bytes `t` have come. -/
theorem leads_ipv4 (t : Bytes) (hfit : t.length ≤ 90) :
    ∃ s', Leads none (fine 0 true) s [socks5Version :: socks5CmdConnect :: 0 :: socks5Ipv4 :: t] s' ∧
      s'.closed = false ∧ s'.downstream = true ∧
      s'.connects = s.connects ++
        [(inAddrAt (socks5Version :: socks5CmdConnect :: 0 :: socks5Ipv4 :: t ++ₛ Stream'.const b) 4,
          inPortAt (socks5Version :: socks5CmdConnect :: 0 :: socks5Ipv4 :: t ++ₛ Stream'.const b) 8)] := by
  obtain ⟨hleads, hmem⟩ := leads_request hs hbehind (socks5Version :: socks5CmdConnect :: 0 :: socks5Ipv4 :: t)
    (Nat.le_add_left 4 _) (Nat.add_le_add_right (m := 96) (le_trans hfit (by decide)) 4)
  obtain ⟨hclosed, hdown, hconnects⟩ := request_ipv4
    (s := s.arrived (socks5Version :: socks5CmdConnect :: 0 :: socks5Ipv4 :: t))
    (by rw [hmem]; rfl) (by rw [hmem]; rfl) hs.closed (by rw [hmem]; rfl)
  rw [hmem] at hconnects
  exact ⟨_, hleads, hclosed, hdown, hconnects⟩

/-- A request for a name, of which the bytes `t` have come. -/
theorem leads_domain (t : Bytes) (hfit : t.length ≤ 90) :
    ∃ s', Leads none (fine 0 true) s [socks5Version :: socks5CmdConnect :: 0 :: socks5Domain :: t] s' ∧ s'.Waits ∧
      ∃ name port, s'.queries = s.queries ++ [(name, port)] ∧ name.length = ((t ++ₛ Stream'.const b).head).toNat := by
  obtain ⟨hleads, hmem⟩ := leads_request hs hbehind (socks5Version :: socks5CmdConnect :: 0 :: socks5Domain :: t)
    (Nat.le_add_left 4 _) (Nat.add_le_add_right (m := 96) (le_trans hfit (by decide)) 4)
  obtain ⟨hpending, hqueries⟩ := request_domain
    (s := s.arrived (socks5Version :: socks5CmdConnect :: 0 :: socks5Domain :: t))
    (by rw [hmem]; rfl) (by rw [hmem]; rfl) (by rw [hmem]; rfl)
  refine ⟨_, hleads, waits_of_nil hpending, _, _, hqueries, ?_⟩
  rw [Stream'.length_take, hmem]
  rfl

/-- A request for an IPv6 address, of which the bytes `t` have come. -/
theorem leads_ipv6 (t : Bytes) (hfit : t.length ≤ 90) :
    ∃ s', Leads none (fine 0 true) s [socks5Version :: socks5CmdConnect :: 0 :: socks5Ipv6 :: t] s' ∧ Idle true s' ∧
      s'.out.flatten.length = s.out.flatten.length + 4 ∧ s'.queries = s.queries := by
  obtain ⟨hleads, hmem⟩ := leads_request hs hbehind (socks5Version :: socks5CmdConnect :: 0 :: socks5Ipv6 :: t)
    (Nat.le_add_left 4 _) (Nat.add_le_add_right (m := 96) (le_trans hfit (by decide)) 4)
  obtain ⟨hidle, hout, hqueries⟩ := request_ipv6
    (s := s.arrived (socks5Version :: socks5CmdConnect :: 0 :: socks5Ipv6 :: t))
    (by rw [hmem]; rfl) (by rw [hmem]; rfl) hs.closed hs.downstream hs.authed (by rw [hmem]; rfl)
  exact ⟨_, hleads, hidle, hout, hqueries⟩

end Forms

theorem kept_authenticate_none {s : Handshake} (h : s.pending.head? ≠ some 1) :
    (s.authenticate none (fine 0 true)).behind = s.mem ∧ (s.authenticate none (fine 0 true)).queries = s.queries ∧
      (s.authenticate none (fine 0 true)).connects = s.connects := by
  have hput : ¬ (s.put (s.pos + 1) [socks5AuthUserpass]).pending.head? = some 1 := h
  simp only [authenticate]
  rw [if_neg hput]
  refine ⟨?_, (kept_answer 2 0 _).2.2.1, (kept_answer 2 0 _).2.1⟩
  have hsend : Sent.took 0 ≠ .error := by simp
  exact congrArg Session.behind (toSession_answer hsend _ _ _)

/-- A greeting of two bytes, in a buffer of `b`. -/
theorem leads_bare {f : First} (h2 : f.bytes.length = 2) (b : UInt8) :
    ∃ s, Leads none (fine 0 true) (init (Stream'.const b) (Stream'.const b)) [f.bytes] s ∧ Idle true s ∧
      s.behind.drop 2 = Stream'.const b ∧ s.out.flatten.length = 2 ∧ s.queries = [] ∧ s.connects = [] := by
  have hne : f.bytes ≠ [] := by
    intro hnil
    rw [hnil] at h2
    cases h2
  have hleads : Leads none (fine 0 true) (init (Stream'.const b) (Stream'.const b)) [f.bytes] _ :=
    leads_one rfl rfl hne (by
      show f.bytes.length ≤ _
      rw [h2]
      decide)
  obtain ⟨hidle, hout⟩ := idle_authenticated none 0 true (s := init (Stream'.const b) (Stream'.const b)) f.bytes
    rfl rfl rfl h2.ge (Or.inl rfl)
  have hhead : ((init (Stream'.const b) (Stream'.const b)).arrived f.bytes).pending.head? ≠ some 1 := by
    cases f with
    | greeting g => exact fun h => absurd (Option.some.inj h) (by decide)
    | userpass m =>
      rw [First.bytes, m.length_bytes] at h2
      omega
  have hmem : ((init (Stream'.const b) (Stream'.const b)).arrived f.bytes).mem = f.bytes ++ₛ Stream'.const b := by
    show [] ++ f.bytes ++ₛ (Stream'.const b).drop f.bytes.length = _
    rw [List.nil_append, Stream'.drop_const]
  obtain ⟨hbehind, hqueries, hconnects⟩ := kept_authenticate_none hhead
  rw [received_authenticate rfl h2.ge] at hleads hidle hout
  refine ⟨_, hleads, hidle, ?_, by rw [hout]; rfl, hqueries, hconnects⟩
  rw [hbehind, hmem]
  exact drop_append_of_eq _ _ h2

section Bare

variable {f : First} {port : InPort} (h2 : f.bytes.length = 2)
include h2

/-- The port that is connected to is that of the request, or what is in the buffer. -/
theorem not_everyCutting_of_bare_ipv4 (addr : InAddr) : ¬ EveryCutting none f ⟨.ipv4 addr, port⟩ := by
  obtain ⟨addr, haddr⟩ := addr
  obtain ⟨port, hport⟩ := port
  obtain ⟨p, q, rfl⟩ := List.length_eq_two.1 hport
  match addr, haddr with
  | [a₁, a₂, a₃, a₄], haddr =>
    obtain ⟨s, hs, hidle, hbehind, -, -, hconnects⟩ := leads_bare h2 (p + 1)
    obtain ⟨t, ht, -, -, hto⟩ := leads_ipv4 hidle hbehind [a₁, a₂, a₃, a₄, p, q] (by simp)
    obtain ⟨t', ht', hclosed, hdown, hto'⟩ := leads_ipv4 hidle hbehind [] (by simp)
    let c : Cutting f.bytes := .whole fun h => absurd h2 (by rw [h]; decide)
    let d : Cutting (ConnectRequest.bytes ⟨.ipv4 ⟨[a₁, a₂, a₃, a₄], haddr⟩, ⟨[p, q], hport⟩⟩) :=
      .whole (List.cons_ne_nil _ _)
    let d' : Cutting (ConnectRequest.bytes ⟨.ipv4 ⟨[a₁, a₂, a₃, a₄], haddr⟩, ⟨[p, q], hport⟩⟩) :=
      ⟨[[socks5Version, socks5CmdConnect, 0, socks5Ipv4], [a₁, a₂, a₃, a₄, p, q]], rfl, by simp⟩
    have hrun : Leads none (fine 0 true) _ (c.reads ++ d.reads) t := hs.append ht
    have hrun' : Leads none (fine 0 true) _ (c.reads ++ d'.reads) t' :=
      hs.append (ht'.append (leads_downstream hclosed hdown _))
    intro hevery
    have heq := congrArg (fun o => o.2.2.1) (hevery.outcome_eq hrun hrun')
    simp only [outcome, hto, hto', hconnects] at heq
    have hports := congrArg (fun a => (a.2 : InPort).1) (List.head_eq_of_cons_eq heq)
    have hp : p = p + 1 := (List.cons.inj hports).1
    have hnat := congrArg UInt8.toNat hp
    rw [UInt8.toNat_add] at hnat
    have hlt := p.toNat_lt
    simp only [UInt8.toNat_one] at hnat
    omega

/-- The name that is looked for has the length of the request, or one that is in the buffer. -/
theorem not_everyCutting_of_bare_domain (name : Bytes) (len : name.length < 256) :
    ¬ EveryCutting none f ⟨.domain name len, port⟩ := by
  obtain ⟨s, hs, hidle, hbehind, -, hqueries, -⟩ := leads_bare h2 (UInt8.ofNat (name.length + 1))
  obtain ⟨t, ht, hwaits, x, a, hasks, hlen⟩ := leads_domain hidle hbehind [UInt8.ofNat name.length] (by simp)
  obtain ⟨t', ht', hwaits', x', a', hasks', hlen'⟩ := leads_domain hidle hbehind [] (by simp)
  obtain ⟨e, he⟩ := leads_singles none (fine 0 true) hwaits (name ++ port.1)
  obtain ⟨e', he'⟩ := leads_singles none (fine 0 true) hwaits' (UInt8.ofNat name.length :: (name ++ port.1))
  let c : Cutting f.bytes := .whole fun h => absurd h2 (by rw [h]; decide)
  let d : Cutting (ConnectRequest.bytes ⟨.domain name len, port⟩) :=
    ⟨[socks5Version, socks5CmdConnect, 0, socks5Domain, UInt8.ofNat name.length] :: singles (name ++ port.1),
      congrArg ([_, _, _, _, _] ++ ·) (flatten_singles _),
      List.forall_mem_cons.2 ⟨List.cons_ne_nil _ _, fun _ => singles_ne_nil⟩⟩
  let d' : Cutting (ConnectRequest.bytes ⟨.domain name len, port⟩) :=
    ⟨[socks5Version, socks5CmdConnect, 0, socks5Domain] :: singles (UInt8.ofNat name.length :: (name ++ port.1)),
      congrArg ([_, _, _, _] ++ ·) (flatten_singles _),
      List.forall_mem_cons.2 ⟨List.cons_ne_nil _ _, fun _ => singles_ne_nil⟩⟩
  have hrun : Leads none (fine 0 true) _ (c.reads ++ d.reads) e := hs.append (ht.append he)
  have hrun' : Leads none (fine 0 true) _ (c.reads ++ d'.reads) e' := hs.append (ht'.append he')
  obtain ⟨v, u, hsaid⟩ : Adds t e := by
    rw [← he.1]
    exact run_adds rfl t _
  obtain ⟨v', u', hsaid'⟩ : Adds t' e' := by
    rw [← he'.1]
    exact run_adds rfl t' _
  intro hevery
  have heq := congrArg (fun o => o.2.2.2) (hevery.outcome_eq hrun hrun')
  simp only [outcome, (Prod.mk.inj hsaid).2, (Prod.mk.inj hsaid').2, hasks, hasks', hqueries] at heq
  have hname : x = x' := congrArg Prod.fst (List.head_eq_of_cons_eq heq)
  rw [hname, hlen'] at hlen
  have hnat : (UInt8.ofNat (name.length + 1)).toNat = (UInt8.ofNat name.length).toNat := hlen
  rw [UInt8.toNat_ofNat', UInt8.toNat_ofNat'] at hnat
  omega

/-- One refusal, or one for each of two requests. -/
theorem not_everyCutting_of_bare_ipv6 (addr : {b : Bytes // b.length = 16}) :
    ¬ EveryCutting none f ⟨.ipv6 addr, port⟩ := by
  obtain ⟨s, hs, hidle, hbehind, -, hqueries, -⟩ := leads_bare h2 0
  have hlen : (addr.1 ++ port.1).length = 18 := by rw [List.length_append, addr.2, port.2]
  obtain ⟨t, ht, hidlet, hout, hsame⟩ := leads_ipv6 hidle hbehind (addr.1 ++ port.1) (by rw [hlen]; decide)
  obtain ⟨t', ht', hidlet', hout', hsame'⟩ := leads_ipv6 hidle hbehind [] (by simp)
  have hpending : t'.pending ++ (addr.1 ++ port.1) = addr.1 ++ port.1 := by rw [hidlet'.pending, List.nil_append]
  have hsecond : Leads none (fine 0 true) t' [addr.1 ++ port.1]
      ((t'.arrived (addr.1 ++ port.1)).request (fine 0 true)) := by
    rw [← received_request hidlet'.authed (by rw [hpending, hlen]; decide)]
    refine leads_one hidlet'.closed hidlet'.downstream ?_ (by rw [hpending, hlen]; decide)
    intro hnil
    rw [hnil] at hlen
    cases hlen
  let c : Cutting f.bytes := .whole fun h => absurd h2 (by rw [h]; decide)
  let d : Cutting (ConnectRequest.bytes ⟨.ipv6 addr, port⟩) := .whole (List.cons_ne_nil _ _)
  let d' : Cutting (ConnectRequest.bytes ⟨.ipv6 addr, port⟩) :=
    ⟨[[socks5Version, socks5CmdConnect, 0, socks5Ipv6], addr.1 ++ port.1],
      by simp [ConnectRequest.bytes, Target.bytes], by
      rw [List.forall_mem_cons, List.forall_mem_singleton]
      refine ⟨List.cons_ne_nil _ _, fun hnil => ?_⟩
      rw [hnil] at hlen
      cases hlen⟩
  have hrun : Leads none (fine 0 true) _ (c.reads ++ d.reads) t := hs.append ht
  have hrun' : Leads none (fine 0 true) _ (c.reads ++ d'.reads) _ := hs.append (ht'.append hsecond)
  intro hevery
  have heq := hevery.outcome_eq hrun hrun'
  have hresolver : (fine 0 true).resolver = true := rfl
  cases request_answered hresolver (t'.arrived (addr.1 ++ port.1)) with
  | reply b hb hsaid =>
    have hbytes := congrArg (fun o => o.1.length) heq
    have hpos := List.length_pos_iff.2 hb
    simp only [outcome, (Prod.mk.inj hsaid).1, List.flatten_append, List.length_append,
      List.flatten_singleton] at hbytes
    rw [hout] at hbytes
    have hsame : (t'.arrived (addr.1 ++ port.1)).out.flatten.length = s.out.flatten.length + 4 := hout'
    omega
  | query q hsaid =>
    have hasks := congrArg (fun o => o.2.2.2) heq
    simp only [outcome, (Prod.mk.inj hsaid).2, hsame, hqueries] at hasks
    exact absurd hasks.symm (by simp)

end Bare

/-- **A request behind a greeting without methods** has one outcome whole and another one cut behind its fourth byte, or
behind its fourth and its fifth. -/
theorem not_everyCutting_of_bare {f : First} (h2 : f.bytes.length = 2) (r : ConnectRequest) :
    ¬ EveryCutting none f r := by
  obtain ⟨target, port⟩ := r
  cases target with
  | ipv4 addr => exact not_everyCutting_of_bare_ipv4 h2 addr
  | domain name len => exact not_everyCutting_of_bare_domain h2 name len
  | ipv6 addr => exact not_everyCutting_of_bare_ipv6 h2 addr

end NgxPlus.Socks5.Handshake
