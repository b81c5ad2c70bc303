import NgxPlus.Socks5.LetIn

/-!
# Streams that no cutting changes (`ngx_stream_socks5_module.c`)

* `everyCutting_iff`: all cuttings of a message and a request, with any bytes in the new buffers, have one
  outcome exactly where a list is configured and the message is a greeting, or one with a password that is
  refused behind its first two bytes whatever follows them in the buffer, and in which no second message
  can begin (no byte 01 where the first read can end).
* `cutting_decides`: the request of 10.0.0.1 in one read is connected to that address, and cut behind its
  fourth byte to what was in the buffer.

A message that is refused is told apart by the number of refusals: a second message begins behind some
first reads and not behind others (`not_everyCutting_of_second`), or, where nothing but 01 is in
reach, they can be cut into more messages or fewer (`not_everyCutting_of_ones_refused`).
-/

namespace NgxPlus.Socks5.Handshake

open ByteMem Trace

/-! ## A client that is refused -/

section Refusals

variable {l : PasswdList} {inMem outMem : Mem} {f : First} {r : ConnectRequest}

/-- Never let in behind the first two bytes. -/
def NeverAccepted (l : PasswdList) (f : First) : Prop := ∀ mem, accepts (some l) (f.bytes.take 2 ++ₛ mem) = false

/-- Nor behind more of them. -/
theorem NeverAccepted.eq_false (h : NeverAccepted l f) {v w : Bytes} (hflat : f.bytes = v ++ w) (h2 : 2 ≤ v.length)
    (mem : Mem) : accepts (some l) (v ++ₛ mem) = false := by
  have hv : v = f.bytes.take 2 ++ v.drop 2 := by
    rw [hflat, List.take_append_of_le_length h2, List.take_append_drop]
  rw [hv, Stream'.append_append_stream]
  exact h _

theorem behind_checked (l : PasswdList) (n : Nat) (resolver : Bool) {s : Handshake} {bs : Bytes} (hs : s.authed = false)
    (h2 : 2 ≤ (s.pending ++ bs).length) (h1 : (s.pending ++ bs).head? = some 1) :
    (received (some l) s bs (fine n resolver)).behind =
      (readReq (s.pending ++ bs ++ₛ s.behind.drop bs.length)).mem := by
  have hsend : (fine n resolver).send ≠ .error := by simp [fine]
  have hsession := congrArg Session.behind (toSession_received (some l) hs bs hsend rfl)
  have hlong : ¬ (s.authed || decide ((s.pending ++ bs).length < 2)) = true := by
    rw [hs, Bool.false_or, decide_eq_true_eq]
    exact Nat.not_lt.2 h2
  rw [hsession]
  simp only [Socks5.received]
  rw [if_neg hlong, if_pos h1]

/-- A second message waits for its second byte, and is answered. -/
theorem leads_second (l : PasswdList) (n : Nat) (resolver : Bool) {s : Handshake} (hs : Idle false s) (y : UInt8) :
    ∃ s', Leads (some l) (fine n resolver) s (singles [1, y]) s' ∧ s'.Waits ∧
      s'.out.flatten.length = s.out.flatten.length + 2 := by
  have harmed : (fine n resolver).armed = true := rfl
  have hpending : (s.arrived [1]).pending = [1] := by rw [toSession_arrived, hs.pending, List.nil_append]
  have hone : Leads (some l) (fine n resolver) s [[1]] (s.arrived [1]) := by
    have h : Leads (some l) (fine n resolver) s [[1]] (received (some l) s [1] (fine n resolver)) :=
      leads_one hs.closed hs.downstream (List.cons_ne_nil _ _) (by rw [hs.pending]; decide)
    rwa [received_waits (by rw [minimum_of_not_authed hs.authed, hs.pending]; decide), rearm, if_pos harmed] at h
  have htwo : Leads (some l) (fine n resolver) (s.arrived [1]) [[y]] _ :=
    leads_one (s := s.arrived [1]) hs.closed hs.downstream (List.cons_ne_nil _ _)
      (by rw [hpending, ngxSocksAuthBufferLen]; simp)
  obtain ⟨hidle, hout⟩ := idle_authenticated (some l) n resolver (s := s.arrived [1]) [y] hs.closed hs.downstream
    hs.authed (by rw [hpending]; exact le_rfl) (by rw [hpending]; exact Or.inr rfl)
  refine ⟨_, hone.append htwo, waits_of_nil hidle.pending, ?_⟩
  rw [hout, List.flatten_append, List.length_append]
  rfl

/-- Behind a refusal, anything but 01 ends the session. -/
theorem leads_foreign {reads : List Bytes} {w : Bytes} {s : Handshake} (hflat : f.bytes = reads.flatten ++ w)
    (hreads : ∀ bs ∈ reads, bs ≠ []) (hs : Leads (some l) (fine 0 true) (init inMem outMem) reads s)
    (hidle : Idle false s) (h1 : (w ++ r.bytes).head? ≠ some 1) :
    ∃ (c : Cutting f.bytes) (d : Cutting r.bytes) (s' : Handshake),
      Leads (some l) (fine 0 true) (init inMem outMem) (c.reads ++ d.reads) s' ∧ s'.outcome = s.outcome := by
  obtain ⟨c, d, hrun⟩ := exists_rest (r := r) hflat hreads hs (waits_of_nil hidle.pending)
  have hrequest := r.four_le_length
  refine ⟨c, d, _, hrun, (run_foreign hidle.closed hidle.downstream rfl hidle.authed (by rw [hidle.pending]; decide)
    (fun _ => singles_ne_nil) ?_ ?_).2⟩
  · rw [hidle.pending, flatten_singles, List.nil_append, List.length_append]
    rw [sizeofRequest] at hrequest
    omega
  · rwa [hidle.pending, flatten_singles]

/-- The first look, at the bytes `u`. -/
theorem NeverAccepted.leads_first (h : NeverAccepted l f) (h1 : f.bytes.head? = some 1) (inMem outMem : Mem)
    {u u' : Bytes} (hflat : f.bytes = u ++ u') (h2 : 2 ≤ u.length) (hfit : u.length ≤ ngxSocksAuthBufferLen) :
    ∃ s, Leads (some l) (fine 0 true) (init inMem outMem) [u] s ∧ Idle false s ∧ s.out.flatten.length = 2 ∧
      s.behind = (readReq (u ++ₛ inMem.drop u.length)).mem := by
  have hhead : u.head? = some 1 := by
    cases u with
    | nil => exact absurd h2 (by decide)
    | cons y u =>
      rw [hflat] at h1
      exact h1
  have hleads : Leads (some l) (fine 0 true) (init inMem outMem) [u] _ :=
    leads_one rfl rfl (forall_mem_one h2 u List.mem_cons_self) hfit
  obtain ⟨hidle, hout⟩ := idle_authenticated (some l) 0 true (s := init inMem outMem) u rfl rfl rfl h2 (Or.inr hhead)
  have hfalse : accepts (some l)
      ((init inMem outMem).pending ++ u ++ₛ (init inMem outMem).behind.drop u.length) = false :=
    h.eq_false hflat h2 _
  rw [hfalse] at hidle
  exact ⟨_, hleads, hidle, by rw [hout]; rfl, behind_checked l 0 true rfl h2 hhead⟩

/-- **A second message** begins behind `v`, and none behind `v'`. -/
theorem not_everyCutting_of_second (h : NeverAccepted l f) (h1 : f.bytes.head? = some 1) {v w v' w' : Bytes}
    (hflat : f.bytes = v ++ 1 :: w) (h2 : 2 ≤ v.length) (hfit : v.length ≤ ngxSocksAuthBufferLen)
    (hflat' : f.bytes = v' ++ w') (h2' : 2 ≤ v'.length) (hfit' : v'.length ≤ ngxSocksAuthBufferLen)
    (hforeign : (w' ++ r.bytes).head? ≠ some 1) : ¬ EveryCutting (some l) f r := by
  obtain ⟨s, hs, hidle, hlen, -⟩ := h.leads_first h1 (Stream'.const 0) (Stream'.const 0) hflat h2 hfit
  obtain ⟨s', hs', hidle', hlen', -⟩ := h.leads_first h1 (Stream'.const 0) (Stream'.const 0) hflat' h2' hfit'
  -- Two replies in the one cutting.
  obtain ⟨c, d, hrun⟩ := exists_rest (r := r) (w := 1 :: w) (by simpa using hflat) (forall_mem_one h2) hs
    (waits_of_nil hidle.pending)
  obtain ⟨y, rest, hrest⟩ : ∃ y rest, w ++ r.bytes = y :: rest := by
    refine List.exists_cons_of_ne_nil fun hnil => ?_
    have hrequest := r.four_le_length
    rw [(List.append_eq_nil_iff.1 hnil).2] at hrequest
    exact absurd hrequest (by decide)
  obtain ⟨s₂, hs₂, -, hlen₂⟩ := leads_second l 0 true hidle y
  have hsplit : 1 :: w ++ r.bytes = [1, y] ++ rest := congrArg (1 :: ·) hrest
  rw [hsplit, singles_append, dataEvents_append, run_append, hs₂.1] at hrun
  have hresolver : (fine 0 true).resolver = true := rfl
  obtain ⟨t, u, hsaid⟩ : Adds s₂ (run (handler (some l)) s₂ (dataEvents (singles rest) (fine 0 true))) :=
    run_adds hresolver s₂ (singles rest)
  -- And one in the other.
  obtain ⟨c', d', e', hrun', hout'⟩ := leads_foreign (r := r) (by simpa using hflat')
    (forall_mem_one h2') hs' hidle' hforeign
  intro hevery
  have heq := congrArg (fun o => o.1.length) ((hevery.outcome_eq hrun hrun').trans hout')
  have hout := (Prod.mk.inj hsaid).1
  simp only [outcome, hout, hlen', List.flatten_append, List.length_append] at heq
  omega

/-! ## Nothing but 01 -/

/-- A copy inside a stretch of one byte. -/
theorem copy_const {m : Mem} {b : UInt8} (h : m.drop 2 = Stream'.const b) (i j k : Nat) :
    (write m (2 + i) ((m.drop (2 + j)).take k)).drop 2 = Stream'.const b := by
  rw [drop_write_add, ← Stream'.drop_drop, h, Stream'.drop_const]
  nth_rewrite 2 [← Stream'.drop_const i b]
  exact write_self _ _ _

theorem readReq_const {mem : Mem} {b : UInt8} (h : mem.drop 2 = Stream'.const b) :
    (readReq mem).mem.drop 2 = Stream'.const b := by
  rw [readReq]
  have h1 := copy_const h 256 (mem.drop 1).head.toNat 2
  have h2 := copy_const h1 257 (1 + (mem.drop 1).head.toNat)
  simp only [← Nat.add_assoc] at h1 h2
  exact h2 _

theorem replicate_append_const (k : Nat) (b : UInt8) : List.replicate k b ++ₛ Stream'.const b = Stream'.const b := by
  induction k with
  | zero => rfl
  | succ k ih => rw [List.replicate_succ, Stream'.cons_append_stream, ih, ← Stream'.const_eq]

/-- Two bytes 01 or three in each read. -/
def Ones (reads : List Bytes) : Prop := ∀ x ∈ reads, x = [1, 1] ∨ x = [1, 1, 1]

theorem exists_ones (k : Nat) : ∃ reads, reads.flatten = List.replicate (k + 2) 1 ∧ Ones reads := by
  induction k using Nat.strong_induction_on with
  | _ k ih =>
    match k with
    | 0 => exact ⟨[[1, 1]], rfl, by simp [Ones]⟩
    | 1 => exact ⟨[[1, 1, 1]], rfl, by simp [Ones]⟩
    | k + 2 =>
      obtain ⟨reads, hflat, hones⟩ := ih k (by omega)
      refine ⟨[1, 1] :: reads, ?_, ?_⟩
      · rw [List.flatten_cons, hflat]
        rfl
      · exact List.forall_mem_cons.2 ⟨Or.inl rfl, hones⟩

/-- Each of them is a message that is refused. -/
theorem leads_ones (hfalse : accepts (some l) (Stream'.const 1) = false) {s : Handshake} (hs : Idle false s)
    (hbehind : s.behind.drop 2 = Stream'.const 1) {reads : List Bytes} (h : Ones reads) :
    ∃ s', Leads (some l) (fine 0 true) s reads s' ∧ Idle false s' ∧
      s'.out.flatten.length = s.out.flatten.length + 2 * reads.length := by
  induction reads generalizing s with
  | nil => exact ⟨s, leads_nil, hs, rfl⟩
  | cons bs reads ih =>
    obtain ⟨hbs, hreads⟩ := List.forall_mem_cons.1 h
    obtain ⟨k, hk, hle⟩ : ∃ k, bs = List.replicate (k + 2) 1 ∧ k ≤ 1 := by
      rcases hbs with rfl | rfl
      · exact ⟨0, rfl, by decide⟩
      · exact ⟨1, rfl, le_rfl⟩
    have hlen : bs.length = k + 2 := by rw [hk, List.length_replicate]
    have hpending : s.pending ++ bs = bs := by rw [hs.pending, List.nil_append]
    have hmem : s.pending ++ bs ++ₛ s.behind.drop bs.length = Stream'.const 1 := by
      rw [hpending, hlen, Nat.add_comm, ← Stream'.drop_drop, hbehind, Stream'.drop_const, hk, replicate_append_const]
    have hhead : (s.pending ++ bs).head? = some 1 := by
      rw [hpending, hk]
      rfl
    have hlong : 2 ≤ (s.pending ++ bs).length := by
      rw [hpending, hlen]
      omega
    have hfirst : Leads (some l) (fine 0 true) s [bs] _ :=
      leads_one hs.closed hs.downstream (by rw [hk]; exact List.cons_ne_nil _ _)
        (by rw [hpending, hlen, ngxSocksAuthBufferLen]; omega)
    obtain ⟨hidle, hout⟩ := idle_authenticated (some l) 0 true bs hs.closed hs.downstream hs.authed hlong (Or.inr hhead)
    rw [hmem, hfalse] at hidle hout
    have hbehind' := behind_checked l 0 true hs.authed hlong hhead
    have hconst : (received (some l) s bs (fine 0 true)).behind.drop 2 = Stream'.const 1 := by
      rw [hbehind', hmem]
      exact readReq_const (Stream'.drop_const ..)
    obtain ⟨s', hleads, hidle', hlen'⟩ := ih hidle hconst hreads
    refine ⟨s', hfirst.append hleads, hidle', ?_⟩
    rw [hlen', hout, List.flatten_append, List.length_append, List.length_cons]
    simp only [List.flatten_singleton, List.length_cons, List.length_nil]
    omega

/-- The first look at 01s, in a buffer of them. -/
theorem NeverAccepted.leads_ones (h : NeverAccepted l f) (h1 : f.bytes.head? = some 1) {u u' : Bytes}
    (hflat : f.bytes = u ++ u') (h2 : 2 ≤ u.length) (hfit : u.length ≤ ngxSocksAuthBufferLen)
    (hu : u.drop 2 ++ₛ Stream'.const 1 = Stream'.const 1) :
    ∃ s, Leads (some l) (fine 0 true) (init (Stream'.const 1) (Stream'.const 1)) [u] s ∧ Idle false s ∧
      s.out.flatten.length = 2 ∧ s.behind.drop 2 = Stream'.const 1 := by
  obtain ⟨s, hs, hidle, hlen, hbehind⟩ := h.leads_first h1 (Stream'.const 1) (Stream'.const 1) hflat h2 hfit
  refine ⟨s, hs, hidle, hlen, ?_⟩
  rw [hbehind]
  refine readReq_const ?_
  rw [Stream'.drop_append_of_le_length _ _ _ h2, Stream'.drop_const, hu]

section Ones

variable {u rest : Bytes} {k : Nat} (h : NeverAccepted l f) (h1 : f.bytes.head? = some 1) (hu : u.length = 2)
  (hflat : f.bytes = u ++ (List.replicate (k + 7) 1 ++ rest))
include h h1 hu hflat

/-- The second message lets the client in. -/
theorem not_everyCutting_of_ones_accepted (haccepts : accepts (some l) (Stream'.const 1) = true) :
    ¬ EveryCutting (some l) f r := by
  obtain ⟨s, hs, hidle, -, hbehind⟩ := h.leads_ones h1 hflat hu.ge (by rw [hu]; decide)
    (by rw [List.drop_of_length_le hu.le]; rfl)
  have hpending : s.pending ++ [1, 1] = [1, 1] := by rw [hidle.pending, List.nil_append]
  have hlook : s.pending ++ [1, 1] ++ₛ s.behind.drop ([1, 1] : Bytes).length = Stream'.const 1 := by
    rw [hpending, show ([1, 1] : Bytes).length = 2 from rfl, hbehind]
    exact replicate_append_const 2 1
  have hsecond : Leads (some l) (fine 0 true) s [[1, 1]] _ :=
    leads_one hidle.closed hidle.downstream (List.cons_ne_nil _ _) (by rw [hpending]; decide)
  obtain ⟨hidle₂, -⟩ := idle_authenticated (some l) 0 true [1, 1] hidle.closed hidle.downstream hidle.authed
    (by rw [hpending]; exact le_rfl) (by rw [hpending]; exact Or.inr rfl)
  rw [hlook, haccepts] at hidle₂
  obtain ⟨w, x, hw⟩ : ∃ w x, (1 :: (List.replicate k 1 ++ rest) : Bytes) = w ++ [x] :=
    ⟨_, _, (List.dropLast_append_getLast (List.cons_ne_nil _ _)).symm⟩
  have hcover : f.bytes = ([u] ++ [[1, 1]]).flatten ++ (1 :: 1 :: 1 :: 1 :: w) ++ [x] := by
    rw [hflat]
    simp only [List.replicate_succ, List.cons_append, hw]
    simp
  refine not_everyCutting_of_idle 0 true hcover (Or.inr fun h => absurd h.1 (by decide)) ?_ (hs.append hsecond) hidle₂
  intro bs hbs
  rcases List.mem_append.1 hbs with hbs | hbs
  · exact forall_mem_one hu.ge bs hbs
  · exact forall_mem_one le_rfl bs hbs

/-- One message more in the one cutting than in the other. -/
theorem not_everyCutting_of_ones_refused (haccepts : accepts (some l) (Stream'.const 1) = false)
    (hrest : (rest ++ r.bytes).head? ≠ some 1) : ¬ EveryCutting (some l) f r := by
  have hflat' : f.bytes = (u ++ [1, 1]) ++ (List.replicate (k + 5) 1 ++ rest) := by
    rw [hflat, List.append_assoc]
    rfl
  have hu' : (u ++ [1, 1]).length = 4 := by
    rw [List.length_append, hu]
    rfl
  obtain ⟨s, hs, hidle, hlen, hbehind⟩ := h.leads_ones h1 hflat hu.ge (by rw [hu]; decide)
    (by rw [List.drop_of_length_le hu.le]; rfl)
  obtain ⟨s', hs', hidle', hlen', hbehind'⟩ := h.leads_ones h1 hflat' (by rw [hu']; decide) (by rw [hu']; decide)
    (by rw [List.drop_left' hu]; exact replicate_append_const 2 1)
  obtain ⟨ones, hones, hall⟩ := exists_ones (k + 3)
  obtain ⟨t, ht, hidlet, hlent⟩ := leads_ones haccepts hidle hbehind (List.forall_mem_cons.2 ⟨Or.inl rfl, hall⟩)
  obtain ⟨t', ht', hidlet', hlent'⟩ := leads_ones haccepts hidle' hbehind' hall
  have hne : ∀ bs ∈ ones, bs ≠ [] := by
    intro bs hbs
    rcases hall bs hbs with rfl | rfl
    · exact List.cons_ne_nil _ _
    · exact List.cons_ne_nil _ _
  have hcover : f.bytes = ([u] ++ [1, 1] :: ones).flatten ++ rest := by
    simp [hflat, hones, List.replicate_succ]
  have hcover' : f.bytes = ([u ++ [1, 1]] ++ ones).flatten ++ rest := by
    simp [hflat, hones, List.replicate_succ]
  obtain ⟨c, d, e, hrun, hout⟩ := leads_foreign (r := r) hcover (by
    intro bs hbs
    rcases List.mem_append.1 hbs with hbs | hbs
    · exact forall_mem_one hu.ge bs hbs
    · rcases List.mem_cons.1 hbs with rfl | hbs
      · exact List.cons_ne_nil _ _
      · exact hne bs hbs) (hs.append ht) hidlet hrest
  obtain ⟨c', d', e', hrun', hout'⟩ := leads_foreign (r := r) hcover' (by
    intro bs hbs
    rcases List.mem_append.1 hbs with hbs | hbs
    · exact forall_mem_one (by rw [hu']; decide) bs hbs
    · exact hne bs hbs) (hs'.append ht') hidlet' hrest
  intro hevery
  have heq := congrArg (fun o => o.1.length) (hout.symm.trans ((hevery.outcome_eq hrun hrun').trans hout'))
  simp only [outcome, hlent, hlent', hlen, hlen', List.length_cons] at heq
  omega

end Ones

/-- The bytes 01 that a message begins with. -/
theorem exists_ones_rest (bs : Bytes) : ∃ k rest, bs = List.replicate k 1 ++ rest ∧ rest.head? ≠ some 1 := by
  induction bs with
  | nil => exact ⟨0, [], rfl, by simp⟩
  | cons b bs ih =>
    by_cases hb : b = 1
    · obtain ⟨k, rest, rfl, hhead⟩ := ih
      exact ⟨k + 1, rest, by rw [hb]; rfl, hhead⟩
    · exact ⟨0, b :: bs, rfl, by simpa using hb⟩

/-- **A byte 01 where the first read can end.** -/
theorem not_everyCutting_of_one (h : NeverAccepted l f) (h1 : f.bytes.head? = some 1) {i : Nat} (hi : 2 ≤ i)
    (hfit : i ≤ ngxSocksAuthBufferLen) (hone : f.bytes[i]? = some 1) : ¬ EveryCutting (some l) f r := by
  obtain ⟨k, rest, hsplit, hhead⟩ := exists_ones_rest (f.bytes.drop 2)
  have hrest : (rest ++ r.bytes).head? ≠ some 1 := by
    cases rest with
    | nil => exact r.head_ne_one
    | cons y rest => exact hhead
  have hu : (f.bytes.take 2).length = 2 := List.length_take_of_le f.two_le_length
  have hflat : f.bytes = f.bytes.take 2 ++ (List.replicate k 1 ++ rest) := by rw [← hsplit, List.take_append_drop]
  by_cases hk : k + 2 ≤ ngxSocksAuthBufferLen
  · -- A first read can end behind the 01s.
    obtain ⟨hlt, -⟩ := List.getElem?_eq_some_iff.1 hone
    have hlen : (f.bytes.take i).length = i := List.length_take_of_le hlt.le
    have hflat₁ : f.bytes = f.bytes.take i ++ 1 :: f.bytes.drop (i + 1) := by
      rw [← List.getElem?_eq_some_iff.1 hone |>.2, List.getElem_cons_drop, List.take_append_drop]
    have hlen' : (f.bytes.take 2 ++ List.replicate k 1).length = k + 2 := by
      rw [List.length_append, hu, List.length_replicate, Nat.add_comm]
    exact not_everyCutting_of_second h h1 hflat₁ (by rwa [hlen]) (by rwa [hlen])
      (by rw [List.append_assoc]; exact hflat) (by rw [hlen']; exact Nat.le_add_left 2 k) (by rwa [hlen']) hrest
  · obtain ⟨k, rfl⟩ : ∃ k', k = k' + 7 := ⟨k - 7, by rw [ngxSocksAuthBufferLen] at hk; omega⟩
    cases haccepts : accepts (some l) (Stream'.const 1) with
    | true => exact not_everyCutting_of_ones_accepted h h1 hu hflat haccepts
    | false => exact not_everyCutting_of_ones_refused h h1 hu hflat haccepts hrest

end Refusals

/-! ## A client that is always refused -/

/-- No byte 01 where a first read can end. -/
def NoSecond (f : First) : Prop := ∀ i, 2 ≤ i → i ≤ ngxSocksAuthBufferLen → f.bytes[i]? ≠ some 1

section Always

variable {l : PasswdList} {f : First} {n : Nat} {resolver : Bool}

theorem outcome_refused {s : Handshake} {bs w : Bytes} (h : NeverAccepted l f) (h1 : f.bytes.head? = some 1)
    (hc : s.closed = false) (hd : s.downstream = false) (hs : s.authed = false) (h2 : 2 ≤ (s.pending ++ bs).length)
    (hflat : f.bytes = s.pending ++ bs ++ w) :
    Idle false (received (some l) s bs (fine n resolver)) ∧
      (received (some l) s bs (fine n resolver)).outcome =
        (s.out.flatten ++ [1, 0xff], false, s.connects, s.queries) := by
  have hhead : (s.pending ++ bs).head? = some 1 := by
    rw [hflat] at h1
    cases hlook : s.pending ++ bs with
    | nil =>
      rw [hlook] at h2
      exact absurd h2 (by decide)
    | cons y ys =>
      rw [hlook] at h1
      exact h1
  obtain ⟨hidle, hout⟩ := idle_authenticated (some l) n resolver bs hc hd hs h2 (Or.inr hhead)
  rw [h.eq_false hflat h2, if_pos hhead] at hout
  rw [h.eq_false hflat h2] at hidle
  have hkept : (received (some l) s bs (fine n resolver)).queries = s.queries ∧
      (received (some l) s bs (fine n resolver)).connects = s.connects := by
    have hput : ((s.arrived bs).put ((s.arrived bs).pos + 1) [socks5AuthUserpass]).pending.head? = some 1 := hhead
    rw [received_authenticate hs h2]
    simp only [authenticate]
    rw [if_pos hput]
    exact ⟨(kept_answer 2 n _).2.2.1, (kept_answer 2 n _).2.1⟩
  refine ⟨hidle, ?_⟩
  rw [outcome, hout, hidle.authed, hkept.1, hkept.2, List.flatten_append]
  rfl

/-- The reads up to the refusal. -/
theorem exists_refusal (h : NeverAccepted l f) (h1 : f.bytes.head? = some 1) {s : Handshake} {reads : List Bytes}
    (hc : s.closed = false) (hd : s.downstream = false) (hs : s.authed = false) (hpending : s.pending.length < 2)
    (hreads : ∀ bs ∈ reads, bs ≠ []) (hflat : f.bytes = s.pending ++ reads.flatten)
    (hroom : Always (handler (some l)) HasPlace s (dataEvents reads (fine n resolver))) :
    ∃ as rest v, reads = as ++ rest ∧ f.bytes = v ++ rest.flatten ∧ 2 ≤ v.length ∧ v.length ≤ ngxSocksAuthBufferLen ∧
      Idle false (run (handler (some l)) s (dataEvents as (fine n resolver))) ∧
      (run (handler (some l)) s (dataEvents as (fine n resolver))).outcome =
        (s.out.flatten ++ [1, 0xff], false, s.connects, s.queries) := by
  induction reads generalizing s with
  | nil =>
    have hlen := f.two_le_length
    rw [hflat, List.flatten_nil, List.append_nil] at hlen
    omega
  | cons bs reads ih =>
    have hbs := hreads bs List.mem_cons_self
    have hfit := hroom.1 hc hd
    have hnext : handler (some l) s (.data bs (fine n resolver)) = received (some l) s bs (fine n resolver) :=
      handler_fits hc hd hbs hfit
    rw [List.flatten_cons, ← List.append_assoc] at hflat
    by_cases hwaits : (s.pending ++ bs).length < 2
    · have harmed : (fine n resolver).armed = true := rfl
      rw [received_waits (by rwa [minimum_of_not_authed hs]), rearm, if_pos harmed] at hnext
      have hrest := hroom.2
      rw [hnext] at hrest
      obtain ⟨as, rest, v, rfl, hfound⟩ := ih (s := s.arrived bs) hc hd hs hwaits
        (fun x hx => hreads x (List.mem_cons_of_mem _ hx)) hflat hrest
      refine ⟨bs :: as, rest, v, rfl, ?_⟩
      rw [dataEvents_cons, run_cons, hnext]
      exact hfound
    · refine ⟨[bs], reads, s.pending ++ bs, rfl, hflat, Nat.not_lt.1 hwaits, hfit, ?_⟩
      rw [dataEvents_cons, run_cons, hnext]
      exact outcome_refused h h1 hc hd hs (Nat.not_lt.1 hwaits) hflat

/-- One reply, and the end at the first byte that is looked at next. -/
theorem outcomeOf_refused (h : NeverAccepted l f) (h1 : f.bytes.head? = some 1) (hno : NoSecond f) {r : ConnectRequest}
    {inMem outMem : Mem} (c : Cutting f.bytes) (d : Cutting r.bytes)
    (hroom : Always (handler (some l)) HasPlace (init inMem outMem)
    (dataEvents (c.reads ++ d.reads) (fine n resolver))) :
    outcomeOf (some l) inMem outMem c d (fine n resolver) = ([1, 0xff], false, [], []) := by
  rw [dataEvents_append, always_append] at hroom
  obtain ⟨as, rest, v, hsplit, hflat, h2, hfit, hidle, hout⟩ := exists_refusal h h1 (s := init inMem outMem) rfl rfl rfl
    Nat.two_pos c.nonempty c.flatten.symm hroom.1
  have hhead : (rest.flatten ++ r.bytes).head? ≠ some 1 := by
    cases hrest : rest.flatten with
    | nil => exact r.head_ne_one
    | cons y ys =>
      have hget := hno v.length h2 hfit
      rw [hflat, hrest, List.getElem?_append_right le_rfl, Nat.sub_self] at hget
      exact hget
  have hrequest := r.four_le_length
  rw [outcomeOf, hsplit, List.append_assoc, dataEvents_append, run_append]
  refine (run_foreign hidle.closed hidle.downstream rfl hidle.authed
      (by rw [hidle.pending]; decide) ?_ ?_ ?_).2.trans hout
  · intro bs hbs
    rcases List.mem_append.1 hbs with hbs | hbs
    · exact c.nonempty bs (by rw [hsplit]; exact List.mem_append_right _ hbs)
    · exact d.nonempty bs hbs
  · rw [hidle.pending, List.nil_append, List.flatten_append, d.flatten, List.length_append]
    rw [sizeofRequest] at hrequest
    omega
  · rwa [hidle.pending, List.nil_append, List.flatten_append, d.flatten]

end Always

/-- A first byte 01 is that of a message with a password. -/
theorem First.three_le_length (f : First) (h1 : f.bytes.head? = some 1) : 3 ≤ f.bytes.length := by
  cases f with
  | greeting g => exact absurd (Option.some.inj h1) (by decide)
  | userpass m =>
    rw [First.bytes, m.length_bytes]
    omega

/-- **The cutting never matters** exactly where a list is configured and the session ends without a client that
is let in: at the second byte, or by one refusal. -/
theorem everyCutting_iff (passwdList : Option PasswdList) (f : First) (r : ConnectRequest) :
    EveryCutting passwdList f r ↔
      EndsAtOnce passwdList f ∨ ∃ l, passwdList = some l ∧ NeverAccepted l f ∧ NoSecond f := by
  constructor
  · intro h
    by_contra hno
    rw [not_or] at hno
    obtain ⟨hends, hrefused⟩ := hno
    cases passwdList with
    | none =>
      have h2 := f.two_le_length
      by_cases h3 : 3 ≤ f.bytes.length
      · exact not_everyCutting_of_accepts h3 (Or.inl rfl) (m := Stream'.const 0) rfl h
      · exact not_everyCutting_of_bare (by omega) r h
    | some l =>
      have h1 : f.bytes.head? = some 1 := not_not.1 fun h1 => hends ⟨rfl, h1⟩
      by_cases hnever : NeverAccepted l f
      · have hsecond : ¬ NoSecond f := fun hsecond => hrefused ⟨l, rfl, hnever, hsecond⟩
        rw [NoSecond] at hsecond
        push Not at hsecond
        obtain ⟨i, hi, hfit, hone⟩ := hsecond
        exact not_everyCutting_of_one hnever h1 hi hfit hone h
      · rw [NeverAccepted] at hnever
        push Not at hnever
        obtain ⟨mem, haccepts⟩ := hnever
        exact not_everyCutting_of_accepts (f.three_le_length h1) (Or.inr h1) (Bool.eq_true_of_not_eq_false haccepts) h
  · rintro (hends | ⟨l, rfl, hnever, hno⟩) inMem outMem n resolver c c' d d' hroom hroom'
    · rw [outcomeOf_endsAtOnce outMem n resolver c d hends, outcomeOf_endsAtOnce outMem n resolver c' d' hends]
    · by_cases h1 : f.bytes.head? = some 1
      · rw [outcomeOf_refused hnever h1 hno c d hroom, outcomeOf_refused hnever h1 hno c' d' hroom']
      · have hends : EndsAtOnce (some l) f := ⟨rfl, h1⟩
        rw [outcomeOf_endsAtOnce outMem n resolver c d hends, outcomeOf_endsAtOnce outMem n resolver c' d' hends]

/-- Cut behind its fourth byte, the request is looked at without its address. -/
def earlyRequest : Cutting tenRequest.bytes := ⟨[[5, 1, 0, 1], [10, 0, 0, 1, 0, 80]], rfl, by decide⟩

/-- Whole it is connected to 10.0.0.1, cut to 0.0.0.0. -/
theorem cutting_decides : ¬ ∀ (passwdList : Option PasswdList) (f : First) (r : ConnectRequest),
    EveryCutting passwdList f r := by
  intro h
  have hsame := h none plainGreeting tenRequest (Stream'.const 0) (Stream'.const 0) 10 true wholeGreeting wholeGreeting
    wholeRequest earlyRequest ?_ ?_
  · have hconnects := congrArg (fun o => o.2.2.1) hsame
    have hwhole : (outcomeOf none (Stream'.const 0) (Stream'.const 0) wholeGreeting wholeRequest (fine 10 true)).2.2.1 =
        [(⟨[10, 0, 0, 1], rfl⟩, ⟨[0, 80], rfl⟩)] := by
      decide +kernel
    have hcut : (outcomeOf none (Stream'.const 0) (Stream'.const 0) wholeGreeting earlyRequest (fine 10 true)).2.2.1 =
        [(⟨[0, 0, 0, 0], rfl⟩, ⟨[0, 0], rfl⟩)] := by
      decide +kernel
    simp only [hwhole, hcut] at hconnects
    exact absurd hconnects (by decide)
  · exact ⟨fun _ _ => by decide +kernel, fun _ _ => by decide +kernel, trivial⟩
  · exact ⟨fun _ _ => by decide +kernel, fun _ _ => by decide +kernel, fun _ _ => by decide +kernel, trivial⟩

end NgxPlus.Socks5.Handshake
