import NgxPlus.Socks5.Cutting

/-!
# Reads that lead on (`ngx_stream_socks5_module.c`)

A read brings no more than the buffer has room for (`HasPlace`), and single bytes always find room
(`always_singles`). `Leads` is a run through such reads.

Four bytes and more that are no CONNECT request are answered with four bytes, whatever follows them
(`leads_refused`), and any bytes with no CONNECT at their beginning can be read as such requests
(`exists_refused`). So a request that is read behind one byte more can be told apart by its cutting
(`differ_behind`): in one read it is answered once, and twice where it is cut behind `05 01 00`.
-/

namespace NgxPlus.Socks5.Handshake

open ByteMem Trace

/-! ## Reads that find room -/

/-- `recv` brings no more than there is room for. -/
def HasPlace (s : Handshake) : Event → Prop
  | .data bs _ => s.closed = false → s.downstream = false → (s.pending ++ bs).length ≤ ngxSocksAuthBufferLen
  | _ => True

/-- What is pending is too short to be looked at. -/
def Waits (s : Handshake) : Prop := s.closed = false → s.downstream = false → s.pending.length < s.minimum

/-- One byte in each read. -/
def singles (bs : Bytes) : List Bytes := bs.map fun b => [b]

theorem flatten_singles (bs : Bytes) : (singles bs).flatten = bs := by
  induction bs with
  | nil => rfl
  | cons b bs ih => exact congrArg (b :: ·) ih

theorem singles_append (as bs : Bytes) : singles (as ++ bs) = singles as ++ singles bs := List.map_append

theorem singles_ne_nil {bs x : Bytes} (h : x ∈ singles bs) : x ≠ [] := by
  obtain ⟨b, -, rfl⟩ := List.mem_map.1 h
  exact List.cons_ne_nil _ _

theorem minimum_pos (s : Handshake) : 0 < s.minimum := by
  unfold minimum
  split
  · exact Nat.succ_pos _
  · exact Nat.succ_pos _

theorem minimum_le_four (s : Handshake) : s.minimum ≤ 4 := by
  unfold minimum
  split
  · exact le_rfl
  · decide

theorem waits_of_nil {s : Handshake} (h : s.pending = []) : s.Waits := by
  intro _ _
  rw [h]
  exact s.minimum_pos

theorem pending_send (s : Handshake) (send : Sent) : (s.ngxSocks5Send send).pending = s.pending := by
  unfold ngxSocks5Send
  split
  · rfl
  · cases send <;> rfl

theorem pending_rearm (s : Handshake) (armed : Bool) : (s.rearm armed).pending = s.pending := by
  unfold rearm
  split <;> rfl

theorem pending_connect (s : Handshake) : s.connect.pending = s.pending := by
  unfold connect
  split <;> rfl

theorem pending_answer (s : Handshake) (n : Nat) (mem : Mem) (send : Sent) (armed : Bool) :
    ((s.answer n mem send).rearm armed).pending = [] := by
  rw [pending_rearm, answer, pending_send]

section Room

variable {passwdList : Option PasswdList} {s : Handshake} {ans : Answers}

/-- A message that has been looked at is gone, or the session is. -/
theorem authenticate_ends (s : Handshake) :
    (s.authenticate passwdList ans).pending = [] ∨ (s.authenticate passwdList ans).closed = true := by
  simp only [authenticate]
  split
  · exact Or.inl (pending_answer ..)
  · cases passwdList with
    | none => exact Or.inl (pending_answer ..)
    | some l => exact Or.inr rfl

theorem request_ends (s : Handshake) : (s.request ans).pending = [] ∨ (s.request ans).closed = true := by
  simp only [request]
  split
  · exact Or.inl (pending_answer ..)
  · split
    · refine Or.inl ?_
      rw [pending_connect, pending_answer]
    · split
      · split
        · exact Or.inl rfl
        · exact Or.inr rfl
      · exact Or.inl (pending_answer ..)

theorem waits_received (s : Handshake) (bs : Bytes) : (received passwdList s bs ans).Waits := by
  have hends {s' : Handshake} (h : s'.pending = [] ∨ s'.closed = true) : s'.Waits := by
    rcases h with hnil | hclosed
    · exact waits_of_nil hnil
    · intro hopen
      rw [hclosed] at hopen
      cases hopen
  by_cases hwaits : (s.pending ++ bs).length < s.minimum
  · rw [received_waits hwaits]
    intro _ _
    unfold rearm
    split
    · exact hwaits
    · exact hwaits
  · cases hs : s.authed with
    | false =>
      rw [minimum_of_not_authed hs] at hwaits
      rw [received_authenticate hs (Nat.not_lt.1 hwaits)]
      exact hends (authenticate_ends _)
    | true =>
      rw [minimum_of_authed hs] at hwaits
      rw [received_request hs (Nat.not_lt.1 hwaits)]
      exact hends (request_ends _)

theorem waits_data (hs : s.Waits) (bs : Bytes) : (handler passwdList s (.data bs ans)).Waits := by
  cases hc : s.closed with
  | true => rwa [handler_closed hc]
  | false =>
    cases hd : s.downstream with
    | true => simpa [handler, hc, hd] using hs
    | false =>
      rw [handler_data hc hd]
      split
      · intro hopen
        cases hopen
      · exact waits_received s _

/-- Single bytes always find room. -/
theorem always_singles (hs : s.Waits) (bs : Bytes) :
    Always (handler passwdList) HasPlace s (dataEvents (singles bs) ans) := by
  induction bs generalizing s with
  | nil => trivial
  | cons b bs ih =>
    refine ⟨fun hc hd => ?_, ih (waits_data hs [b])⟩
    have hlt := hs hc hd
    have hmin := s.minimum_le_four
    rw [List.length_append, List.length_singleton, ngxSocksAuthBufferLen]
    omega

end Room

/-! ## What has been said stays said -/

def said (s : Handshake) : List Bytes × List (Bytes × InPort) := (s.out, s.queries)

@[simp] theorem said_put (s : Handshake) (off : Nat) (bs : Bytes) : (s.put off bs).said = s.said := rfl

@[simp] theorem said_finalize (s : Handshake) : s.finalize.said = s.said := rfl

@[simp] theorem said_arrived (s : Handshake) (bs : Bytes) : (s.arrived bs).said = s.said := rfl

@[simp] theorem said_send (s : Handshake) (send : Sent) : (s.ngxSocks5Send send).said = s.said := by
  unfold ngxSocks5Send
  split
  · rfl
  · cases send <;> rfl

@[simp] theorem said_rearm (s : Handshake) (armed : Bool) : (s.rearm armed).said = s.said := by
  unfold rearm
  split <;> rfl

@[simp] theorem said_connect (s : Handshake) : s.connect.said = s.said := by
  unfold connect
  split <;> rfl

/-- Nothing is taken back. -/
def Adds (s s' : Handshake) : Prop := ∃ t u, s'.said = (s.out ++ t, s.queries ++ u)

theorem Adds.of_eq {s s' : Handshake} (h : s'.said = s.said) : Adds s s' :=
  ⟨[], [], by rw [h, List.append_nil, List.append_nil, said]⟩

theorem Adds.trans {s s' s'' : Handshake} (h : Adds s s') (h' : Adds s' s'') : Adds s s'' := by
  obtain ⟨t, u, h⟩ := h
  obtain ⟨t', u', h'⟩ := h'
  obtain ⟨hout, hqueries⟩ := Prod.mk.inj h
  exact ⟨t ++ t', u ++ u', by rw [h', hout, hqueries, List.append_assoc, List.append_assoc]⟩

/-- There is a reply more, or a question to the resolver. -/
inductive Answered (s s' : Handshake) : Prop
  | reply (b : Bytes) (hb : b ≠ []) (h : s'.said = (s.out ++ [b], s.queries))
  | query (q : Bytes × InPort) (h : s'.said = (s.out, s.queries ++ [q]))

theorem Answered.adds {s s' : Handshake} (h : Answered s s') : Adds s s' := by
  cases h with
  | reply b hb h => exact ⟨[b], [], by rw [h, List.append_nil]⟩
  | query q h => exact ⟨[], [q], by rw [h, List.append_nil]⟩

theorem answered_answer {s t : Handshake} (h : t.said = s.said) {n : Nat} (hn : n ≠ 0) (mem : Mem) (send : Sent)
    (armed : Bool) : Answered s ((t.answer n mem send).rearm armed) := by
  obtain ⟨hout, hqueries⟩ := Prod.mk.inj h
  refine .reply ((t.outMem.drop t.pos).take n) ?_ ?_
  · intro hnil
    have hlen := congrArg List.length hnil
    rw [Stream'.length_take] at hlen
    exact hn hlen
  · rw [said_rearm, answer, said_send, said, hout, hqueries]

section Saying

variable {passwdList : Option PasswdList} {s : Handshake} {ans : Answers}

theorem request_answered (hresolver : ans.resolver = true) (s : Handshake) : Answered s (s.request ans) := by
  have hfour : 4 ≠ 0 := by decide
  simp only [request, hresolver, if_true]
  split
  · exact answered_answer (said_put ..) hfour _ _ _
  · split
    · cases answered_answer (s := s) (t := ({ s with sinAddr := inAddrAt s.mem 4, sinPort := inPortAt s.mem 8 }.put
          (s.pos + 4) (inAddrAt s.mem 4).1).put (s.pos + 8) (inPortAt s.mem 8).1) rfl (n := 10) (by decide) s.mem
          ans.send ans.armed with
      | reply b hb h => exact .reply b hb (by rw [said_connect]; exact h)
      | query q h => exact .query q (by rw [said_connect]; exact h)
    · split
      · exact .query _ rfl
      · exact answered_answer (said_put ..) hfour _ _ _

theorem authenticate_adds (s : Handshake) : Adds s (s.authenticate passwdList ans) := by
  simp only [authenticate]
  split
  · exact (answered_answer rfl (by decide) _ _ _).adds
  · cases passwdList with
    | none => exact (answered_answer rfl (by decide) _ _ _).adds
    | some l => exact Adds.of_eq rfl

theorem received_adds (hresolver : ans.resolver = true) (s : Handshake) (bs : Bytes) :
    Adds s (received passwdList s bs ans) := by
  by_cases hwaits : (s.pending ++ bs).length < s.minimum
  · rw [received_waits hwaits]
    exact Adds.of_eq (said_rearm ..)
  · cases hs : s.authed with
    | false =>
      rw [minimum_of_not_authed hs] at hwaits
      rw [received_authenticate hs (Nat.not_lt.1 hwaits)]
      exact authenticate_adds (s.arrived bs)
    | true =>
      rw [minimum_of_authed hs] at hwaits
      rw [received_request hs (Nat.not_lt.1 hwaits)]
      exact (request_answered hresolver (s.arrived bs)).adds

theorem run_adds (hresolver : ans.resolver = true) (s : Handshake) (reads : List Bytes) :
    Adds s (run (handler passwdList) s (dataEvents reads ans)) := by
  induction reads generalizing s with
  | nil => exact Adds.of_eq rfl
  | cons bs reads ih =>
    refine Adds.trans ?_ (ih (handler passwdList s (.data bs ans)))
    cases hc : s.closed with
    | true => exact Adds.of_eq (by rw [handler_closed hc])
    | false =>
      cases hd : s.downstream with
      | true => exact Adds.of_eq (by simp [handler, hc, hd])
      | false =>
        rw [handler_data hc hd]
        split
        · exact Adds.of_eq rfl
        · exact received_adds hresolver s _

end Saying

/-! ## What the handler does with what is looked at -/

/-- Four bytes and more that are no CONNECT request. -/
def Refused : Bytes → Prop
  | ver :: cmd :: _ :: _ :: _ => ¬ (ver = socks5Version ∧ cmd = socks5CmdConnect)
  | _ => False

section Looks

variable (passwdList : Option PasswdList) (n : Nat) (resolver : Bool) {s : Handshake} (bs : Bytes)

theorem Refused.four_le {bs : Bytes} (h : Refused bs) : 4 ≤ bs.length := by
  match bs, h with
  | _ :: _ :: _ :: _ :: t, _ => exact Nat.le_add_left 4 t.length

theorem Refused.append {bs : Bytes} (h : Refused bs) (t : Bytes) : Refused (bs ++ t) := by
  match bs, h with
  | _ :: _ :: _ :: _ :: _, h => exact h

theorem Refused.get {bs : Bytes} (h : Refused bs) (mem : Mem) :
    (bs ++ₛ mem).get 0 ≠ socks5Version ∨ (bs ++ₛ mem).get 1 ≠ socks5CmdConnect := by
  match bs, h with
  | _ :: _ :: _ :: _ :: _, h => exact not_and_or.1 h

/-- The four bytes of a refusal. -/
theorem idle_notSupported (hc : s.closed = false) (hd : s.downstream = false) (hs : s.authed = true) (mem : Mem) :
    Idle true (((s.put (s.pos + 1) [socks5RepCmdNotSupported]).answer 4 mem (.took n)).rearm true) ∧
      (((s.put (s.pos + 1) [socks5RepCmdNotSupported]).answer 4 mem (.took n)).rearm true).out.flatten.length =
        s.out.flatten.length + 4 := by
  have hsend : Sent.took n ≠ .error := by simp
  have hsession := toSession_answer hsend (s.put (s.pos + 1) [socks5RepCmdNotSupported]) 4 mem
  rw [rearm, if_pos rfl]
  refine ⟨⟨?_, ?_, ?_, ?_⟩, ?_⟩
  · exact (congrArg Session.closed hsession).trans hc
  · rw [answer, downstream_send]
    exact hd
  · exact (congrArg Session.authed hsession).trans hs
  · exact congrArg Session.pending hsession
  · rw [congrArg Session.out hsession, List.flatten_append, List.length_append, List.flatten_singleton,
      Stream'.length_take]
    rfl

theorem idle_refused (hc : s.closed = false) (hd : s.downstream = false) (hs : s.authed = true)
    (h : Refused (s.pending ++ bs)) :
    Idle true (received passwdList s bs (fine n resolver)) ∧
      (received passwdList s bs (fine n resolver)).out.flatten.length = s.out.flatten.length + 4 := by
  have hnot : (s.arrived bs).mem.get 0 ≠ socks5Version ∨ (s.arrived bs).mem.get 1 ≠ socks5CmdConnect := h.get _
  rw [received_request hs h.four_le]
  simp only [request]
  rw [if_pos hnot]
  exact idle_notSupported n (s := s.arrived bs) hc hd hs _

end Looks

/-! ## Requests that are refused -/

/-- Without a CONNECT at their beginnings, any bytes can be cut into requests that are refused. -/
theorem exists_refused (bs : Bytes) (h : Refused bs) :
    ∃ reads, reads ≠ [] ∧ reads.flatten = bs ∧ ∀ x ∈ reads, Refused x ∧ x.length ≤ 8 := by
  induction hn : bs.length using Nat.strong_induction_on generalizing bs with
  | _ n ih =>
    by_cases hshort : bs.length ≤ 8
    · exact ⟨[bs], List.cons_ne_nil _ _, by simp, by simpa using ⟨h, hshort⟩⟩
    · match bs, h with
      | x₀ :: x₁ :: x₂ :: x₃ :: rest, h =>
        obtain ⟨y, rest, rfl⟩ : ∃ y rest', rest = y :: rest' := by
          cases rest with
          | nil => simp at hshort
          | cons y rest => exact ⟨y, rest, rfl⟩
        have hlong : 4 ≤ rest.length := by
          simp only [List.length_cons, not_le] at hshort
          omega
        obtain ⟨z, u, v, w, rest, rfl⟩ : ∃ z u v w rest', rest = z :: u :: v :: w :: rest' := by
          match rest, hlong with
          | z :: u :: v :: w :: rest', _ => exact ⟨z, u, v, w, rest', rfl⟩
        -- The second request begins behind four bytes or behind five.
        by_cases hfive : y = socks5Version ∧ z = socks5CmdConnect
        · have hrest : Refused (z :: u :: v :: w :: rest) := by
            rintro ⟨hz, -⟩
            rw [hfive.2] at hz
            exact absurd hz (by decide)
          obtain ⟨reads, -, hflat, hall⟩ := ih _ (by rw [← hn]; simp) _ hrest rfl
          refine ⟨[x₀, x₁, x₂, x₃, y] :: reads, List.cons_ne_nil _ _, ?_, ?_⟩
          · rw [List.flatten_cons, hflat]
            rfl
          · rw [List.forall_mem_cons]
            exact ⟨⟨h, by simp⟩, hall⟩
        · obtain ⟨reads, -, hflat, hall⟩ := ih _ (by rw [← hn]; simp) (y :: z :: u :: v :: w :: rest) hfive rfl
          refine ⟨[x₀, x₁, x₂, x₃] :: reads, List.cons_ne_nil _ _, ?_, ?_⟩
          · rw [List.flatten_cons, hflat]
            rfl
          · rw [List.forall_mem_cons]
            exact ⟨⟨h, by simp⟩, hall⟩

/-! ## Reads from one state to another -/

section Leads

variable (passwdList : Option PasswdList) (ans : Answers)

/-- The reads, for which there is room, lead from `s` to `s'`. -/
def Leads (s : Handshake) (reads : List Bytes) (s' : Handshake) : Prop :=
  run (handler passwdList) s (dataEvents reads ans) = s' ∧ Always (handler passwdList) HasPlace s (dataEvents reads ans)

variable {passwdList ans} {s s' s'' : Handshake} {reads reads' : List Bytes}

theorem leads_nil : Leads passwdList ans s [] s := ⟨rfl, trivial⟩

theorem Leads.append (h : Leads passwdList ans s reads s') (h' : Leads passwdList ans s' reads' s'') :
    Leads passwdList ans s (reads ++ reads') s'' := by
  obtain ⟨hrun, hroom⟩ := h
  obtain ⟨hrun', hroom'⟩ := h'
  rw [Leads, dataEvents_append, run_append, always_append, hrun]
  exact ⟨hrun', hroom, hroom'⟩

theorem leads_one {bs : Bytes} (hc : s.closed = false) (hd : s.downstream = false) (hbs : bs ≠ [])
    (hfit : (s.pending ++ bs).length ≤ ngxSocksAuthBufferLen) :
    Leads passwdList ans s [bs] (received passwdList s bs ans) := by
  refine ⟨?_, fun _ _ => hfit, trivial⟩
  show handler passwdList s (.data bs ans) = _
  exact handler_fits hc hd hbs hfit

theorem leads_singles (passwdList : Option PasswdList) (ans : Answers) (hs : s.Waits) (bs : Bytes) :
    ∃ s', Leads passwdList ans s (singles bs) s' :=
  ⟨_, rfl, always_singles hs bs⟩

end Leads

section Requests

variable (passwdList : Option PasswdList) (n : Nat) (resolver : Bool) {s : Handshake}

theorem Refused.ne_nil {bs : Bytes} (h : Refused bs) : bs ≠ [] := by
  rintro rfl
  exact h

/-- A read that is refused with what waits before it. -/
theorem leads_one_refused (hc : s.closed = false) (hd : s.downstream = false) (hs : s.authed = true) {bs : Bytes}
    (hbs : bs ≠ []) (h : Refused (s.pending ++ bs)) (hfit : (s.pending ++ bs).length ≤ ngxSocksAuthBufferLen) :
    ∃ s', Leads passwdList (fine n resolver) s [bs] s' ∧ Idle true s' ∧
      s'.out.flatten.length = s.out.flatten.length + 4 :=
  ⟨_, leads_one hc hd hbs hfit, idle_refused passwdList n resolver bs hc hd hs h⟩

/-- Each of them is answered with four bytes. -/
theorem leads_refused (hs : Idle true s) {reads : List Bytes} (h : ∀ x ∈ reads, Refused x ∧ x.length ≤ 8) :
    ∃ s', Leads passwdList (fine n resolver) s reads s' ∧ Idle true s' ∧
      s'.out.flatten.length = s.out.flatten.length + 4 * reads.length := by
  induction reads generalizing s with
  | nil => exact ⟨s, leads_nil, hs, rfl⟩
  | cons bs reads ih =>
    obtain ⟨⟨hbs, hlen⟩, hreads⟩ := List.forall_mem_cons.1 h
    have hpending : s.pending ++ bs = bs := by rw [hs.pending, List.nil_append]
    obtain ⟨s₁, hfirst, hidle, hout⟩ := leads_one_refused passwdList n resolver hs.closed hs.downstream hs.authed
      hbs.ne_nil (by rwa [hpending]) (by rw [hpending]; exact le_trans hlen (by decide))
    obtain ⟨s', hleads, hidle', hout'⟩ := ih hidle hreads
    refine ⟨s', hfirst.append hleads, hidle', ?_⟩
    rw [hout', hout, List.length_cons]
    omega

/-- `05 01 00`, and a rest that is refused. -/
theorem ConnectRequest.bytes_split (r : ConnectRequest) :
    ∃ rest, r.bytes = [socks5Version, socks5CmdConnect, 0] ++ rest ∧ Refused rest := by
  obtain ⟨target, ⟨port, hport⟩⟩ := r
  obtain ⟨p, q, rfl⟩ := List.length_eq_two.1 hport
  refine ⟨target.bytes ++ [p, q], by rw [ConnectRequest.bytes, List.append_assoc], ?_⟩
  cases target with
  | ipv4 addr =>
    obtain ⟨addr, haddr⟩ := addr
    obtain ⟨a, addr, rfl⟩ := List.exists_cons_of_length_eq_add_one haddr
    obtain ⟨b, addr, rfl⟩ := List.exists_cons_of_length_eq_add_one (Nat.succ.inj haddr)
    obtain ⟨c, addr, rfl⟩ := List.exists_cons_of_length_eq_add_one (Nat.succ.inj (Nat.succ.inj haddr))
    exact fun h => absurd h.1 (by decide)
  | domain name hname =>
    rcases name with _ | ⟨a, _ | ⟨b, name⟩⟩
    · exact fun h => absurd h.1 (by decide)
    · exact fun h => absurd h.1 (by decide)
    · exact fun h => absurd h.1 (by decide)
  | ipv6 addr =>
    obtain ⟨addr, haddr⟩ := addr
    obtain ⟨a, addr, rfl⟩ := List.exists_cons_of_length_eq_add_one haddr
    obtain ⟨b, addr, rfl⟩ := List.exists_cons_of_length_eq_add_one (Nat.succ.inj haddr)
    obtain ⟨c, addr, rfl⟩ := List.exists_cons_of_length_eq_add_one (Nat.succ.inj (Nat.succ.inj haddr))
    exact fun h => absurd h.1 (by decide)

/-- **A request behind one byte more** is answered once in one read, and twice where it is cut behind `05 01 00`. -/
theorem differ_behind {x : UInt8} (hc : s.closed = false) (hd : s.downstream = false) (hs : s.authed = true)
    (hpending : s.pending = [x]) (r : ConnectRequest) :
    ∃ (d d' : Cutting r.bytes) (s₁ s₂ : Handshake), Leads passwdList (fine n resolver) s d.reads s₁ ∧
      Leads passwdList (fine n resolver) s d'.reads s₂ ∧ s₁.out.flatten.length ≠ s₂.out.flatten.length := by
  obtain ⟨rest, hbytes, hrest⟩ := r.bytes_split
  obtain ⟨reads, hne, hflat, hall⟩ := exists_refused rest hrest
  obtain ⟨b, reads, rfl⟩ := List.exists_cons_of_ne_nil hne
  obtain ⟨⟨-, hlen⟩, hreads⟩ := List.forall_mem_cons.1 hall
  have hnonempty : ∀ y ∈ b :: reads, y ≠ [] := fun y hy => (hall y hy).1.ne_nil
  have hnot : Refused (s.pending ++ [socks5Version, socks5CmdConnect, 0]) := by
    rw [hpending]
    exact fun h => absurd h.2 (by decide)
  have hnot' : Refused (s.pending ++ ([socks5Version, socks5CmdConnect, 0] ++ b)) := by
    rw [← List.append_assoc]
    exact hnot.append b
  have hfit : (s.pending ++ [socks5Version, socks5CmdConnect, 0]).length ≤ 4 := by
    rw [hpending]
    exact le_rfl
  have hfit' : (s.pending ++ ([socks5Version, socks5CmdConnect, 0] ++ b)).length ≤ ngxSocksAuthBufferLen := by
    rw [← List.append_assoc, List.length_append, ngxSocksAuthBufferLen]
    omega
  obtain ⟨t₁, hfirst, hidle, hout⟩ := leads_one_refused passwdList n resolver hc hd hs (List.cons_ne_nil _ _)
    hnot (le_trans hfit (by decide))
  obtain ⟨t₂, hfirst', hidle', hout'⟩ := leads_one_refused passwdList n resolver hc hd hs (List.cons_ne_nil _ _)
    hnot' hfit'
  obtain ⟨s₁, hleads, -, hlen₁⟩ := leads_refused passwdList n resolver hidle hall
  obtain ⟨s₂, hleads', -, hlen₂⟩ := leads_refused passwdList n resolver hidle' hreads
  refine ⟨⟨[socks5Version, socks5CmdConnect, 0] :: b :: reads, ?_, ?_⟩,
    ⟨([socks5Version, socks5CmdConnect, 0] ++ b) :: reads, ?_, ?_⟩, s₁, s₂, hfirst.append hleads,
        hfirst'.append hleads', ?_⟩
  · rw [List.flatten_cons, hflat, hbytes]
  · rw [List.forall_mem_cons]
    exact ⟨List.cons_ne_nil _ _, hnonempty⟩
  · rw [List.flatten_cons, List.append_assoc, ← List.flatten_cons, hflat, hbytes]
  · rw [List.forall_mem_cons]
    exact ⟨List.cons_ne_nil _ _, fun y hy => hnonempty y (List.mem_cons_of_mem _ hy)⟩
  · rw [hlen₁, hlen₂, hout, hout', List.length_cons]
    omega

end Requests

end NgxPlus.Socks5.Handshake
