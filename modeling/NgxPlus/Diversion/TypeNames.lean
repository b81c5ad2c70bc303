import NgxPlus.Diversion.Policy

/-!
# Type names in a policy message (`ngx_lua_diversion_module.cpp:1484-1514`)

The lookup compares as many bytes as the message sent, from the end of the table. A name that was
sent whole is found (`findPtype_of_name`), but so is everything that some name, its terminator and
the memory behind it begin with: `oid`, the empty string, `oidset` and a NUL.

`readPolicyBy` is `readPolicy` with the lookup left open, `lookups` the strings that the loop over
the policies receives with what the lookup makes of each. Two lookups that agree on the strings one
of them receives read the same message (`lookups_congr`, `times_congr`); so `typesExact_iff` can
name its condition on the strings of the exact reader, without a word about the code's.
-/

namespace NgxPlus.Diversion

open ByteMem Decode

/-! ## Reading with any lookup -/

abbrev TypeLookup := Bytes → Option NgxDivConfEnum

/-- The entry with the name. -/
def exactPtype : TypeLookup := fun type => ngxHttpDiversionConfPtypes.find? fun e => e.name == type

def readPolicyBy (find : TypeLookup) (s : PolicyDec) : Except Rc (DiversionPolicy × PolicyDec) := do
  let (h, d) ← readPolicyHead s.1
  match find h.type with
  | none => .error .error
  | some conf => do
    let (data, s) ← readPolicyData conf.stype h (d, s.2)
    return (⟨conf.value, h.datalen, h.id, h.bitsetId, data.1, fits_dataOf data⟩, s)

theorem readPolicyBy_findPtype (rodata : Rodata) : readPolicyBy (findPtype rodata) = readPolicy rodata := rfl

/-- The strings received by the loop over `n` policies, with the entry each is given. The one that is
refused is the last. -/
def lookups (find : TypeLookup) : Nat → PolicyDec → List (Bytes × Option NgxDivConfEnum)
  | 0, _ => []
  | n + 1, s =>
    match readPolicyHead s.1 with
    | .error _ => []
    | .ok (h, _) =>
      (h.type, find h.type) ::
        match readPolicyBy find s with
        | .error _ => []
        | .ok (_, s) => lookups find n s

/-- The strings received by a call. -/
def typeLookups (find : TypeLookup) (s : Shm) (d : Dec) (ver : Nat) : List (Bytes × Option NgxDivConfEnum) :=
  if ver ≠ s.version ∨ s.policyGroup ≠ [] then []
  else if d.readUint16.1 = ngxUintxError then []
  else match d.readUint16.2.slabAlloc with
    | .error _ => []
    | .ok d' => lookups find d.readUint16.1 (d', s.globalBitvector1)

/-! ## The property -/

/-- `type` is the name of an entry. -/
def IsName (type : Bytes) : Prop := ∃ e ∈ ngxHttpDiversionConfPtypes, e.name = type

/-- Each string received is given the entry with that name, one that is no name fails the call, and
the policies that are loaded have the types that were sent. -/
structure TypesExact (rodata : Rodata) (s : Shm) (d : Dec) (ver : Nat) : Prop where
  assigned : ∀ type entry, (type, entry) ∈ typeLookups (findPtype rodata) s d ver →
    ∀ e, entry = some e ↔ e ∈ ngxHttpDiversionConfPtypes ∧ e.name = type
  refused : ∀ type entry, (type, entry) ∈ typeLookups (findPtype rodata) s d ver → ¬ IsName type →
    (diversionDecodePolicy rodata s d ver).1 = .error
  loaded : s.policyGroup = [] → (diversionDecodePolicy rodata s d ver).2.policyGroup ≠ [] →
    List.Forall₂ (fun x p => ∃ e ∈ ngxHttpDiversionConfPtypes, e.name = x.1 ∧ p.type = e.value)
      (typeLookups (findPtype rodata) s d ver) (diversionDecodePolicy rodata s d ver).2.policys

/-- `type` begins the memory at some name. -/
def BeginsName (rodata : Rodata) (type : Bytes) : Prop :=
  ∃ e ∈ ngxHttpDiversionConfPtypes, (ptypeName rodata e).take type.length = type

/-! ## The table -/

section Table

variable {rodata : Rodata} {type : Bytes}

/-- No name begins another. -/
theorem name_inj : ∀ e ∈ ngxHttpDiversionConfPtypes, ∀ e' ∈ ngxHttpDiversionConfPtypes,
    e.name <+: e'.name → e = e' := by
  decide

theorem nul_notMem_name : ∀ e ∈ ngxHttpDiversionConfPtypes, 0 ∉ e.name := by
  decide

theorem exactPtype_eq_some {e : NgxDivConfEnum} :
    exactPtype type = some e ↔ e ∈ ngxHttpDiversionConfPtypes ∧ e.name = type := by
  constructor
  · intro h
    exact ⟨List.mem_of_find?_eq_some h, by simpa using List.find?_some h⟩
  · rintro ⟨he, rfl⟩
    cases hf : exactPtype e.name with
    | none =>
      have hno := List.find?_eq_none.1 hf e he
      simp at hno
    | some e' =>
      have hname : e'.name = e.name := by simpa using List.find?_some hf
      rw [name_inj e' (List.mem_of_find?_eq_some hf) e he (hname ▸ List.prefix_rfl)]

theorem exactPtype_eq_none : exactPtype type = none ↔ ¬ IsName type := by
  rw [Option.eq_none_iff_forall_ne_some]
  constructor
  · rintro h ⟨e, he⟩
    exact h e (exactPtype_eq_some.2 he)
  · intro h e he
    exact h ⟨e, exactPtype_eq_some.1 he⟩

/-- A name that begins the memory at a name is that name. -/
theorem eq_of_take_ptypeName {e e' : NgxDivConfEnum} (he : e ∈ ngxHttpDiversionConfPtypes)
    (he' : e' ∈ ngxHttpDiversionConfPtypes) (h : (ptypeName rodata e').take e.name.length = e.name) : e' = e := by
  have hpre : e.name <+: e'.name := (take_append_cons_eq_iff (nul_notMem_name e he) _).1 h
  exact (name_inj e he e' he' hpre).symm

theorem take_ptypeName_self (e : NgxDivConfEnum) : (ptypeName rodata e).take e.name.length = e.name :=
  take_append_of_eq _ _ rfl

/-- A whole name is found, whatever lies behind the names. -/
theorem findPtype_of_name {e : NgxDivConfEnum} (he : e ∈ ngxHttpDiversionConfPtypes) :
    findPtype rodata e.name = some e := by
  cases hf : findPtype rodata e.name with
  | none =>
    have hno := List.find?_eq_none.1 hf e (List.mem_reverse.2 he)
    simp [take_ptypeName_self] at hno
  | some e' =>
    have hmem := List.mem_reverse.1 (List.mem_of_find?_eq_some hf)
    have htake : (ptypeName rodata e').take e.name.length = e.name := by simpa using List.find?_some hf
    rw [eq_of_take_ptypeName he hmem htake]

theorem findPtype_eq_none : findPtype rodata type = none ↔ ¬ BeginsName rodata type := by
  simp [findPtype, BeginsName]

/-- The code's lookup is the exact one on names and on what begins none. -/
theorem findPtype_eq_exact_iff :
    findPtype rodata type = exactPtype type ↔ (BeginsName rodata type → IsName type) := by
  constructor
  · intro h hb
    by_contra hno
    exact findPtype_eq_none.1 (h.trans (exactPtype_eq_none.2 hno)) hb
  · intro h
    by_cases hn : IsName type
    · obtain ⟨e, he, rfl⟩ := hn
      rw [findPtype_of_name he, exactPtype_eq_some.2 ⟨he, rfl⟩]
    · rw [findPtype_eq_none.2 fun hb => hn (h hb), exactPtype_eq_none.2 hn]

end Table

/-! ## The loop -/

section Loop

variable {f g : TypeLookup} {n : Nat} {s s' : PolicyDec}

theorem lookups_entry {type : Bytes} {entry : Option NgxDivConfEnum} (h : (type, entry) ∈ lookups f n s) :
    entry = f type := by
  induction n generalizing s with
  | zero => simp [lookups] at h
  | succ n ih =>
    rw [lookups] at h
    cases hh : readPolicyHead s.1 with
    | error e => simp [hh] at h
    | ok r =>
      simp only [hh, List.mem_cons] at h
      rcases h with h | h
      · obtain ⟨rfl, rfl⟩ := Prod.mk.inj h
        rfl
      · cases hp : readPolicyBy f s with
        | error e => simp [hp] at h
        | ok r =>
          simp only [hp] at h
          exact ih h

/-- One policy, where the lookups agree on its type. -/
theorem readPolicyBy_congr {h : PolicyHead} {d : Dec} (hh : readPolicyHead s.1 = .ok (h, d)) (hfg : f h.type = g h.type) :
    readPolicyBy f s = readPolicyBy g s := by
  simp only [readPolicyBy, hh, ok_bind, hfg]

theorem lookups_congr (h : ∀ x ∈ lookups f n s, f x.1 = g x.1) : lookups f n s = lookups g n s := by
  induction n generalizing s with
  | zero => rfl
  | succ n ih =>
    rw [lookups] at h
    rw [lookups, lookups]
    cases hh : readPolicyHead s.1 with
    | error e => rfl
    | ok r =>
      simp only [hh, List.mem_cons, forall_eq_or_imp] at h
      obtain ⟨hhead, hrest⟩ := h
      have hread := readPolicyBy_congr hh hhead
      simp only [hhead, ← hread]
      cases hp : readPolicyBy f s with
      | error e => rfl
      | ok r' =>
        simp only [hp] at hrest
        simp only [ih hrest]

/-- A string that is given no entry fails the loop. -/
theorem times_of_unnamed {type : Bytes} (h : (type, none) ∈ lookups f n s) :
    times (readPolicyBy f) n s = .error .error := by
  induction n generalizing s with
  | zero => simp [lookups] at h
  | succ n ih =>
    rw [lookups] at h
    cases hh : readPolicyHead s.1 with
    | error e => simp [hh] at h
    | ok r =>
      simp only [hh, List.mem_cons] at h
      cases hf : f r.1.type with
      | none =>
        have hread : readPolicyBy f s = .error .error := by
          simp only [readPolicyBy, hh, ok_bind, hf]
        simp [times, hread]
      | some e =>
        rcases h with h | h
        · have hnone := (Prod.mk.inj h).2
          rw [hf] at hnone
          cases hnone
        · cases hp : readPolicyBy f s with
          | error e' => simp [hp] at h
          | ok r' =>
            simp only [hp] at h
            simp [times, hp, ih h]

/-- The policies of a loop that ended well have the types of their strings. -/
theorem types_of_times {ps : {ps : List DiversionPolicy // ps.length = n}}
    (h : times (readPolicyBy f) n s = .ok (ps, s')) :
    List.Forall₂ (fun x p => ∃ e, f x.1 = some e ∧ p.type = e.value) (lookups f n s) ps.1 := by
  induction n generalizing s with
  | zero =>
    obtain ⟨rfl, -⟩ := Prod.mk.inj (Except.ok.inj h)
    exact .nil
  | succ n ih =>
    obtain ⟨p, t, qs, hp, hqs, he⟩ := times_succ_eq_ok.1 h
    rw [he]
    have hread := hp
    obtain ⟨⟨hd, d⟩, hh, hp⟩ := bind_eq_ok.1 hp
    rw [lookups, hh]
    simp only [hread]
    refine .cons ?_ (ih hqs)
    cases hf : f hd.type with
    | none => simp [hf] at hp
    | some conf =>
      simp only [hf] at hp
      obtain ⟨⟨data, s1⟩, -, hp⟩ := bind_eq_ok.1 hp
      obtain ⟨rfl, -⟩ := Prod.mk.inj (Except.ok.inj hp)
      exact ⟨conf, rfl, rfl⟩

end Loop

/-! ## The call -/

section Call

variable {f g : TypeLookup} {rodata : Rodata} {s : Shm} {d : Dec} {ver : Nat}

/-- A call that receives strings has come to the loop. -/
theorem typeLookups_eq {x : Bytes × Option NgxDivConfEnum} (h : x ∈ typeLookups f s d ver) :
    ver = s.version ∧ s.policyGroup = [] ∧ d.readUint16.1 ≠ ngxUintxError ∧
      ∃ d', d.readUint16.2.slabAlloc = .ok d' ∧
        typeLookups f s d ver = lookups f d.readUint16.1 (d', s.globalBitvector1) := by
  rw [typeLookups] at h ⊢
  split at h
  · simp at h
  · rename_i hcall
    obtain ⟨hv, hg⟩ := not_or.1 hcall
    split at h
    · simp at h
    · rename_i hlen
      cases ha : d.readUint16.2.slabAlloc with
      | error e => simp [ha] at h
      | ok d' =>
        refine ⟨not_ne_iff.1 hv, not_ne_iff.1 hg, hlen, d', rfl, ?_⟩
        rw [if_neg hcall, if_neg hlen]

theorem typeLookups_entry {type : Bytes} {entry : Option NgxDivConfEnum} (h : (type, entry) ∈ typeLookups f s d ver) :
    entry = f type := by
  obtain ⟨-, -, -, d', -, heq⟩ := typeLookups_eq h
  rw [heq] at h
  exact lookups_entry h

theorem typeLookups_congr (h : ∀ x ∈ typeLookups f s d ver, f x.1 = g x.1) :
    typeLookups f s d ver = typeLookups g s d ver := by
  rw [typeLookups] at h
  rw [typeLookups, typeLookups]
  split
  · rfl
  · rename_i hcall
    rw [if_neg hcall] at h
    split
    · rfl
    · rename_i hlen
      rw [if_neg hlen] at h
      cases ha : d.readUint16.2.slabAlloc with
      | error e => rfl
      | ok d' =>
        simp only [ha] at h
        exact lookups_congr h

/-- A string that is given no entry fails the call. -/
theorem refused_of_unnamed {type : Bytes} (h : (type, none) ∈ typeLookups (findPtype rodata) s d ver) :
    (diversionDecodePolicy rodata s d ver).1 = .error := by
  obtain ⟨rfl, hg, hlen, d', ha, heq⟩ := typeLookups_eq h
  rw [heq] at h
  have htimes := times_of_unnamed h
  rw [readPolicyBy_findPtype] at htimes
  have htable : readTable rodata d.readUint16.1 (d.readUint16.2, s.globalBitvector1) = .error .error := by
    simp only [readTable, ha, ok_bind, htimes, error_bind]
  simp only [diversionDecodePolicy, hg, ne_eq, not_true_eq_false, or_self, if_false, if_neg hlen, htable]

/-- The policies of a call that loads have the types of its strings. -/
theorem types_of_loaded (hs : s.policyGroup = []) (h : (diversionDecodePolicy rodata s d ver).2.policyGroup ≠ []) :
    List.Forall₂ (fun x p => ∃ e, findPtype rodata x.1 = some e ∧ p.type = e.value)
      (typeLookups (findPtype rodata) s d ver) (diversionDecodePolicy rodata s d ver).2.policys := by
  rw [typeLookups]
  simp only [diversionDecodePolicy] at h ⊢
  split at h
  · exact absurd hs h
  · rename_i hcall
    rw [if_neg hcall, if_neg hcall]
    split at h
    · exact absurd hs h
    · rename_i hlen
      rw [if_neg hlen, if_neg hlen]
      cases ht : readTable rodata d.readUint16.1 (d.readUint16.2, s.globalBitvector1) with
      | error e => cases e <;> simp [ht, hs, freeDiversionPolicy] at h
      | ok t =>
        obtain ⟨d', ha, ht⟩ := bind_eq_ok.1 ht
        obtain ⟨⟨ps, s1⟩, hps, ht⟩ := bind_eq_ok.1 ht
        obtain ⟨groups, -, ht⟩ := bind_eq_ok.1 ht
        obtain rfl := Except.ok.inj ht
        rw [ha]
        exact types_of_times hps

theorem assigned_iff_agree :
    (∀ type entry, (type, entry) ∈ typeLookups (findPtype rodata) s d ver →
      ∀ e, entry = some e ↔ e ∈ ngxHttpDiversionConfPtypes ∧ e.name = type) ↔
      ∀ x ∈ typeLookups (findPtype rodata) s d ver, findPtype rodata x.1 = exactPtype x.1 := by
  constructor
  · rintro h ⟨type, entry⟩ hx
    apply Option.ext
    intro e
    rw [exactPtype_eq_some, ← h type entry hx e, typeLookups_entry hx]
  · intro h type entry hx e
    rw [typeLookups_entry hx, h _ hx, exactPtype_eq_some]

/-- **Types are resolved exactly** by a call if and only if each string that an exact reader of the
message would receive is a name, or begins neither a name nor a name and what lies behind it. -/
theorem typesExact_iff (rodata : Rodata) (s : Shm) (d : Dec) (ver : Nat) :
    TypesExact rodata s d ver ↔
      ∀ x ∈ typeLookups exactPtype s d ver, BeginsName rodata x.1 → IsName x.1 := by
  constructor
  · intro h x hx
    have hagree := assigned_iff_agree.1 h.assigned
    rw [← typeLookups_congr hagree] at hx
    exact findPtype_eq_exact_iff.1 (hagree x hx)
  · intro h
    have hexact : ∀ x ∈ typeLookups exactPtype s d ver, exactPtype x.1 = findPtype rodata x.1 :=
      fun x hx => (findPtype_eq_exact_iff.2 (h x hx)).symm
    have hagree : ∀ x ∈ typeLookups (findPtype rodata) s d ver, findPtype rodata x.1 = exactPtype x.1 := by
      rw [← typeLookups_congr hexact]
      exact fun x hx => (hexact x hx).symm
    refine ⟨assigned_iff_agree.2 hagree, ?_, ?_⟩
    · intro type entry hx hno
      obtain rfl : entry = none := by rw [typeLookups_entry hx, hagree _ hx, exactPtype_eq_none.2 hno]
      exact refused_of_unnamed hx
    · intro hs hg
      refine ((List.forall₂_and_left _ _).2 ⟨hagree, types_of_loaded hs hg⟩).imp ?_
      rintro x p ⟨hx, e, he, hp⟩
      rw [hx, exactPtype_eq_some] at he
      exact ⟨e, he.1, he.2, hp⟩

end Call

/-- One policy, with an empty type, and one group that refers to it. -/
def unnamedMessage : Bytes :=
  [0, 1,
   0, 0, 0, 7, 0, 0, 0, 0, 0, 0,
   0, 1,
   0, 0, 0, 1, 0, 0, 0, 0, 0, 1, 0, 0, 0, 7]

/-- It is loaded, as an `oidset`. -/
theorem unnamed_is_oidset :
    ¬ TypesExact (fun _ => Stream'.const 0) (ngxHttpLuaDiversionInitSysconfZone none)
      (.full unnamedMessage (Stream'.const 0)) 0 := by
  intro h
  have hmem : ([], some (confPtype 9)) ∈ typeLookups (findPtype fun _ => Stream'.const 0)
      (ngxHttpLuaDiversionInitSysconfZone none) (.full unnamedMessage (Stream'.const 0)) 0 := by
    decide +kernel
  have hname := ((h.assigned _ _ hmem (confPtype 9)).1 rfl).2
  exact absurd hname (by decide)

end NgxPlus.Diversion
