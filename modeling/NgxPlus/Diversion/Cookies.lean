import Mathlib.Data.List.DropRight
import Mathlib.Data.List.Find
import NgxPlus.Diversion.Exec

/-!
# Cookies of a request (`ngx_lua_diversion_module.cpp:490-536`, `:568-603`)

| here | there |
| --- | --- |
| `CookieHeader`  | a `Cookie` value as the parser stores it (`ngx_http_parse.c:985-1042`, `ngx_http_request.c:1300-1302`): no NUL, CR or LF in it, a NUL behind it |
| `ngxStrnstr`    | `ngx_strnstr` (`ngx_string.c:625-656`) with a needle of one byte |
| `divTrim`, `divAtol` | `div_atol` (`.cpp:490-536`) |
| `matchCookie`   | the loop over the names (`.cpp:583-588`) |
| `scanPairs`, `scanCookies` | `.cpp:574-603` |

A header is the memory from its first byte on, and an address an offset into it. `div_atol` writes a
NUL behind the digits and puts the byte back, so each step returns the memory. Loops without
a count run on fuel; running out of it is `none`.

`cookies_exact` is the result: the pointers meet or cross only on blanks, every byte is put back, and the last
pair with a name decides.
-/

namespace NgxPlus.Diversion

open ByteMem

/-! ## Bytes -/

def space : UInt8 := 0x20
def tab : UInt8 := 0x09
def carriageReturn : UInt8 := 0x0d
def lineFeed : UInt8 := 0x0a
def semicolon : UInt8 := 0x3b
def equals : UInt8 := 0x3d

def isBlank (c : UInt8) : Bool := c == space || c == tab

/-- What `div_atol` drops from the end. -/
def isTailBlank (c : UInt8) : Bool := isBlank c || c == carriageReturn || c == lineFeed

def isDigit (c : UInt8) : Bool := 0x30 ≤ c && c ≤ 0x39

/-- `isspace` in the C locale. -/
def isSpace (c : UInt8) : Bool := c == space || (0x09 ≤ c && c ≤ 0x0d)

/-! ## The C functions -/

/-- The offset of `c2` in the `len` bytes from `s1` on, up to a NUL. -/
def ngxStrnstr (m : Mem) (c2 : UInt8) : (len s1 : Nat) → Option Nat
  | 0, _ => none
  | len + 1, s1 =>
    let c1 := m.get s1
    if c1 = 0 then none else if c1 = c2 then some s1 else ngxStrnstr m c2 len (s1 + 1)

def digitsValue (ds : Bytes) : Nat := ds.foldl (fun n c => n * 10 + (c.toNat - 0x30)) 0

def longMax : Nat := 2 ^ 63 - 1

/-- `strtol(s, NULL, 10)`, which saturates. -/
def atol (fuel : Nat) (m : Mem) (s : Nat) : Option Int := do
  let i ← seek isSpace m fuel s
  let neg := m.get i == 0x2d
  let i := if neg || m.get i == 0x2b then i + 1 else i
  let j ← seek isDigit m fuel i
  let n := digitsValue ((m.drop i).take (j - i))
  return if neg then -(min n (longMax + 1) : Nat) else (min n longMax : Nat)

/-! ## `div_atol` -/

/-- `t` and `h` where the `do` loop leaves them. -/
def divTrim : Nat → Mem → (t h : Nat) → Option (Nat × Nat)
  | 0, _, _, _ => none
  | fuel + 1, m, t, h =>
    let back := isTailBlank (m.get t)
    let front := isBlank (m.get h)
    let t := if back then t - 1 else t
    let h := if front then h + 1 else h
    if !back && !front then some (t, h)
    else if t = h then some (t, h)
    else divTrim fuel m t h

/-- The number and the memory afterwards. -/
def divAtol (fuel : Nat) (m : Mem) (str len : Nat) : Option (Int × Mem) := do
  let (t, h) ← divTrim fuel m (str + len - 1) str
  let tmp := [m.get (t + 1)]
  let cut := decide (t < str + len - 1)
  let m := if cut then write m (t + 1) [0] else m
  if ((m.drop h).take (t + 1 - h)).all isDigit then do
    let l ← atol fuel m h
    return (l, if cut then write m (t + 1) tmp else m)
  else return (0, if cut then write m (t + 1) tmp else m)

/-! ## The scan -/

/-- The names; a value goes to the place behind its index in `req_val`. -/
def ngxHttpDiversionConfCookies : List Bytes :=
  [ascii ['a', 'i', 'd', '='], ascii ['c', 'i', 'd', '='], ascii ['o', 'i', 'd', '=']]

/-- `userInfo.req_val`. -/
abbrev ReqVal := Nat → Nat

/-- The loop from the last name on; a `long` goes into a `uint64_t`. -/
def matchCookie (fuel : Nat) (m : Mem) (str plen : Nat) (req : ReqVal) : Option (ReqVal × Mem) :=
  match ngxHttpDiversionConfCookies.zipIdx.reverse.find? fun c => (m.drop str).take c.1.length == c.1 with
  | none => some (req, m)
  | some (name, j) => do
    let (l, m) ← divAtol fuel m (str + name.length) (sizeSub plen name.length)
    return (Function.update req (j + 1) (l % 2 ^ 64).toNat, m)

/-- The `do` loop over the pairs of a value of `len` bytes. -/
def scanPairs (len : Nat) : Nat → Mem → (str plen : Nat) → ReqVal → Option (ReqVal × Mem)
  | 0, _, _, _, _ => none
  | fuel + 1, m, str, plen, req => do
    let p := ngxStrnstr m semicolon (sizeSub len str) str
    let plen := match p with
      | some p => p - str
      | none => plen
    let (req, m) ← matchCookie (len + 1) m str plen req
    match p with
    | none => return (req, m)
    | some p =>
      let str ← seek isBlank m (len + 1) (p + 1)
      scanPairs len fuel m str (sizeSub (sizeSub len (p + 1)) (str - (p + 1))) req

/-- A value of a `Cookie` header. -/
structure CookieHeader where
  value : Bytes
  /-- What lies behind the NUL. -/
  after : Mem
  plain : ∀ c ∈ value, c ≠ 0 ∧ c ≠ carriageReturn ∧ c ≠ lineFeed
  noLead : ∀ c ∈ value.head?, isBlank c = false

def CookieHeader.mem (h : CookieHeader) : Mem := h.value ++ₛ Stream'.cons 0 h.after

/-- The loop over the headers: `req_val` and the headers' memory afterwards. -/
def scanCookies : List CookieHeader → ReqVal → Option (ReqVal × List Mem)
  | [], req => some (req, [])
  | h :: hs, req => do
    let (req, m) ← scanPairs h.value.length (h.value.length + 1) h.mem 0 h.value.length req
    let (req, ms) ← scanCookies hs req
    return (req, m :: ms)

/-! ## What a cookie means -/

/-- The `;`-separated pairs of all headers. -/
def pairs (hs : List CookieHeader) : List Bytes := hs.flatMap fun h => h.value.splitOn semicolon

def trimmed (x : Bytes) : Bytes := (x.dropWhile isBlank).rdropWhile isBlank

/-- The number in the text behind a name. -/
def cookieNumber (rest : Bytes) : Nat :=
  if trimmed rest ≠ [] ∧ (trimmed rest).all isDigit then min (digitsValue (trimmed rest)) longMax else 0

/-- The texts behind `name` in the pairs that start with it. -/
def textsOf (name : Bytes) (pairs : List Bytes) : List Bytes :=
  pairs.filterMap fun x => if name <+: x.dropWhile isBlank then some ((x.dropWhile isBlank).drop name.length) else none

/-- The last pair decides; without one the value is 0. -/
def cookieValue (number : Bytes → Nat) (name : Bytes) (pairs : List Bytes) : Nat :=
  match (textsOf name pairs).getLast? with
  | none => 0
  | some rest => number rest

/-- The scan ends with these numbers, and with the headers as they were. -/
def CookiesAre (number : Bytes → Nat) (hs : List CookieHeader) : Prop :=
  ∃ req, scanCookies hs (fun _ => 0) = some (req, hs.map CookieHeader.mem) ∧
    ∀ name j, (name, j) ∈ ngxHttpDiversionConfCookies.zipIdx → req (j + 1) = cookieValue number name (pairs hs)

/-! ## The bytes of a value -/

theorem isTailBlank_of_isBlank {c : UInt8} (h : isBlank c = true) : isTailBlank c = true := by
  simp [isTailBlank, h]

/-- In a value, both ends are trimmed of the same bytes. -/
theorem isTailBlank_eq {c : UInt8} (h : c ≠ carriageReturn ∧ c ≠ lineFeed) : isTailBlank c = isBlank c := by
  rw [isTailBlank, beq_false_of_ne h.1, beq_false_of_ne h.2, Bool.or_false, Bool.or_false]

theorem isDigit_range {c : UInt8} (h : isDigit c = true) : 0x30 ≤ c.toNat ∧ c.toNat ≤ 0x39 := by
  rw [isDigit, Bool.and_eq_true, decide_eq_true_eq, decide_eq_true_eq] at h
  exact ⟨UInt8.le_iff_toNat_le.1 h.1, UInt8.le_iff_toNat_le.1 h.2⟩

theorem isSpace_of_isDigit {c : UInt8} (h : isDigit c = true) : isSpace c = false := by
  have hr := isDigit_range h
  by_contra hs
  rw [Bool.not_eq_false, isSpace, Bool.or_eq_true, Bool.and_eq_true, decide_eq_true_eq, decide_eq_true_eq, beq_iff_eq] at hs
  rcases hs with rfl | ⟨-, hs⟩
  · exact absurd hr.1 (by decide)
  · have hs := UInt8.le_iff_toNat_le.1 hs
    have h13 : (0x0d : UInt8).toNat = 13 := rfl
    omega

theorem isDigit_of_isBlank {c : UInt8} (h : isBlank c = true) : isDigit c = false := by
  rw [isBlank, Bool.or_eq_true, beq_iff_eq, beq_iff_eq] at h
  rcases h with rfl | rfl <;> rfl

/-! ## Trimming -/

section Trim

variable {m : Mem} {fuel t h : Nat}

/-- The pointers stop at the outermost bytes `p` and `q` that are not blank. -/
theorem divTrim_between {p q : Nat} (hpq : p ≤ q) (hfront : ∀ i, h ≤ i → i < p → isBlank (m.get i) = true)
    (hback : ∀ i, q < i → i ≤ t → isTailBlank (m.get i) = true) (hp : isBlank (m.get p) = false)
    (hq : isTailBlank (m.get q) = false) (hh : h ≤ p) (ht : q ≤ t) (hf1 : p - h < fuel) (hf2 : t - q < fuel) :
    divTrim fuel m t h = some (q, p) := by
  induction fuel generalizing t h with
  | zero => exact absurd hf1 (Nat.not_lt_zero _)
  | succ fuel ih =>
    have hb : isTailBlank (m.get t) = decide (q < t) := by
      rcases Nat.eq_or_lt_of_le ht with rfl | hlt
      · simpa using hq
      · rw [hback t hlt le_rfl, decide_eq_true hlt]
    have hfr : isBlank (m.get h) = decide (h < p) := by
      rcases Nat.eq_or_lt_of_le hh with rfl | hlt
      · simpa using hp
      · rw [hfront h le_rfl hlt, decide_eq_true hlt]
    simp only [divTrim, hb, hfr]
    by_cases hlt : q < t
    · by_cases hlp : h < p
      · simp only [hlt, hlp, decide_true, if_true, Bool.not_true, Bool.and_self, Bool.false_eq_true, if_false]
        split
        · rename_i he
          have hq' : t - 1 = q := by omega
          have hp' : h + 1 = p := by omega
          rw [hq', hp']
        · exact ih (fun i h1 h2 => hfront i (by omega) h2) (fun i h1 h2 => hback i h1 (by omega)) (by omega) (by omega)
            (by omega) (by omega)
      · obtain rfl : h = p := by omega
        simp only [hlt, Nat.lt_irrefl, decide_true, decide_false, if_true, Bool.not_true, Bool.not_false, Bool.false_and,
          Bool.false_eq_true, if_false]
        split
        · rename_i he
          have hq' : t - 1 = q := by omega
          rw [hq']
        · exact ih hfront (fun i h1 h2 => hback i h1 (by omega)) (by omega) (by omega) (by omega) (by omega)
    · obtain rfl : t = q := by omega
      by_cases hlp : h < p
      · simp only [hlp, Nat.lt_irrefl, decide_true, decide_false, if_true, Bool.not_true, Bool.not_false, Bool.and_false,
          Bool.false_eq_true, if_false]
        split
        · rename_i he
          have hp' : h + 1 = p := by omega
          rw [hp']
        · exact ih (fun i h1 h2 => hfront i (by omega) h2) hback (by omega) (by omega) (by omega) (by omega)
      · obtain rfl : h = p := by omega
        simp

/-- Where all `n` bytes from `str` on are blank, the pointers meet on one of them or stop outside. -/
theorem divTrim_blank {str n i : Nat} (hblank : ∀ k < n, isBlank (m.get (str + k)) = true) (hstr : 0 < str)
    (hbefore : isTailBlank (m.get (str - 1)) = false) (hbehind : isBlank (m.get (str + n)) = false) (hi : i ≤ n)
    (ht : t + i + 1 = str + n) (hh : h = str + i) (hf : n - i < fuel) :
    (∃ k < n, divTrim fuel m t h = some (str + k, str + k)) ∨ divTrim fuel m t h = some (str - 1, str + n) := by
  induction fuel generalizing t h i with
  | zero => exact absurd hf (Nat.not_lt_zero _)
  | succ fuel ih =>
    rcases Nat.eq_or_lt_of_le hi with rfl | hlt
    · have htstr : t = str - 1 := by omega
      rw [htstr, hh]
      refine Or.inr ?_
      simp [divTrim, hbefore, hbehind]
    · have hb : isTailBlank (m.get t) = true := by
        have hk := hblank (n - i - 1) (by omega)
        rw [show str + (n - i - 1) = t by omega] at hk
        exact isTailBlank_of_isBlank hk
      have hfr : isBlank (m.get h) = true := by
        rw [hh]
        exact hblank i hlt
      have hstep : divTrim (fuel + 1) m t h =
          if t - 1 = h + 1 then some (t - 1, h + 1) else divTrim fuel m (t - 1) (h + 1) := by
        simp [divTrim, hb, hfr]
      rw [hstep]
      split
      · rename_i he
        refine Or.inl ⟨i + 1, by omega, ?_⟩
        rw [he, hh, Nat.add_assoc]
      · exact ih (i := i + 1) hlt (by omega) (by omega) (by omega)

/-- A text is blank, or it is its trimmed text between blanks. -/
theorem trimmed_cases (x : Bytes) :
    ((∀ c ∈ x, isBlank c = true) ∧ trimmed x = []) ∨
      ∃ a b, x = a ++ trimmed x ++ b ∧ (∀ c ∈ a, isBlank c = true) ∧ (∀ c ∈ b, isBlank c = true) ∧
        ∃ hne : trimmed x ≠ [], isBlank ((trimmed x).head hne) = false ∧ isBlank ((trimmed x).getLast hne) = false := by
  by_cases hne : trimmed x = []
  · refine Or.inl ⟨?_, hne⟩
    have hrest : ∀ c ∈ x.dropWhile isBlank, isBlank c = true := List.rdropWhile_eq_nil_iff.1 hne
    have hnil : x.dropWhile isBlank = [] := by
      by_contra h
      have hhead := List.head_dropWhile_not isBlank h
      rw [hrest _ (List.head_mem h)] at hhead
      cases hhead
    exact List.dropWhile_eq_nil_iff.1 hnil
  · have hsplit : x = x.takeWhile isBlank ++ trimmed x ++ (x.dropWhile isBlank).rtakeWhile isBlank := by
      rw [List.append_assoc, trimmed, List.rdropWhile_append_rtakeWhile, List.takeWhile_append_dropWhile]
    have hpre : trimmed x <+: x.dropWhile isBlank := List.rdropWhile_prefix isBlank _
    have hdrop : x.dropWhile isBlank ≠ [] := fun h => hne (List.prefix_nil.1 (h ▸ hpre))
    refine Or.inr ⟨_, _, hsplit, fun _ => List.mem_takeWhile_imp, fun _ => List.mem_rtakeWhile_imp, hne, ?_, ?_⟩
    · rw [List.IsPrefix.head hpre hne]
      exact List.head_dropWhile_not isBlank hdrop
    · exact Bool.eq_false_of_not_eq_true (List.rdropWhile_last_not isBlank _ hne)

end Trim

/-! ## One number -/

section Number

variable {m : Mem} {fuel str len t h : Nat}

theorem seek_stop {p : UInt8 → Bool} {i : Nat} (hp : p (m.get i) = false) (hf : 0 < fuel) : seek p m fuel i = some i := by
  obtain ⟨fuel, rfl⟩ := Nat.exists_eq_add_of_lt hf
  simp [seek, hp]

/-- What ends a text. -/
def Ends (c : UInt8) : Prop := c = 0 ∨ c = semicolon

theorem Ends.no_number {c : UInt8} (h : Ends c) :
    isSpace c = false ∧ c ≠ 0x2d ∧ c ≠ 0x2b ∧ isDigit c = false ∧ isBlank c = false := by
  rcases h with rfl | rfl <;> decide

theorem sign_ne_of_isDigit {c : UInt8} (h : isDigit c = true) : c ≠ 0x2d ∧ c ≠ 0x2b := by
  have hr := isDigit_range h
  constructor
  · rintro rfl
    exact absurd hr.1 (by decide)
  · rintro rfl
    exact absurd hr.1 (by decide)

/-- Digits up to an end; none are the number 0. -/
theorem atol_digits {s : Nat} {y : Bytes} {c : UInt8} {r : Mem} (hd : m.drop s = y ++ₛ Stream'.cons c r)
    (hy : ∀ b ∈ y, isDigit b = true) (hc : Ends c) (hf : y.length < fuel) :
    atol fuel m s = some ((min (digitsValue y) longMax : Nat) : Int) := by
  obtain ⟨hcs, hcm, hcp, hcd, -⟩ := hc.no_number
  have hfirst : isSpace (m.get s) = false ∧ m.get s ≠ 0x2d ∧ m.get s ≠ 0x2b := by
    cases y with
    | nil =>
      have hget : m.get s = c := get_append_length hd
      rw [hget]
      exact ⟨hcs, hcm, hcp⟩
    | cons b y =>
      have hget : m.get s = b := get_append_add hd (Nat.succ_pos _)
      have hb := hy b List.mem_cons_self
      rw [hget]
      exact ⟨isSpace_of_isDigit hb, sign_ne_of_isDigit hb⟩
  obtain ⟨h1, h2, h3⟩ := hfirst
  rw [atol, seek_stop h1 (Nat.zero_lt_of_lt hf)]
  simp only [Option.bind_eq_bind, Option.bind_some, beq_false_of_ne h2, beq_false_of_ne h3, Bool.or_self, Bool.false_eq_true,
    if_false]
  rw [seek_eq hd hy hcd hf, Option.bind_some, Nat.add_sub_cancel_left, hd, take_append_of_eq _ _ rfl]
  rfl

/-- The memory that `atol` sees. -/
def cutAt (m : Mem) (str len t : Nat) : Mem := if t < str + len - 1 then write m (t + 1) [0] else m

/-- Behind the trimming: digits are a number, anything else is 0, and the byte is put back. -/
theorem divAtol_of_trim (ht : divTrim fuel m (str + len - 1) str = some (t, h)) :
    divAtol fuel m str len =
      if ((m.drop h).take (t + 1 - h)).all isDigit then (atol fuel (cutAt m str len t) h).map fun l => (l, m)
      else some (0, m) := by
  have hback : write (write m (t + 1) [0]) (t + 1) [m.get (t + 1)] = m := by
    have htmp : [m.get (t + 1)] = (m.drop (t + 1)).take [(0 : UInt8)].length := by
      rw [List.length_singleton, Stream'.take_succ, Stream'.take_zero, Stream'.head_drop]
    rw [htmp, write_back]
  have hcheck : ((write m (t + 1) [0]).drop h).take (t + 1 - h) = (m.drop h).take (t + 1 - h) := by
    rcases Nat.le_total h (t + 1) with hle | hle
    · exact take_drop_write m [0] (by omega)
    · rw [Nat.sub_eq_zero_of_le hle]
      rfl
  rw [divAtol, ht]
  simp only [Option.bind_eq_bind, Option.bind_some]
  by_cases hcut : t < str + len - 1
  · simp only [hcut, decide_true, if_true, hback, hcheck, cutAt]
    split
    · cases atol fuel (write m (t + 1) [0]) h <;> rfl
    · rfl
  · simp only [hcut, decide_false, if_false, Bool.false_eq_true, cutAt]
    split
    · cases atol fuel m h <;> rfl
    · rfl

/-- A text that is not blank: the pointers stop at the ends of `y`, and a NUL or the end of the pair is behind it. -/
theorem divAtol_text {a y b : Bytes} {c : UInt8} {r : Mem} (hd : m.drop str = (a ++ y ++ b) ++ₛ Stream'.cons c r)
    (ha : ∀ c ∈ a, isBlank c = true) (hb : ∀ c ∈ b, isBlank c = true) (hne : y ≠ []) (hhead : isBlank (y.head hne) = false)
    (hlast : isTailBlank (y.getLast hne) = false) (hc : Ends c) (hf : (a ++ y ++ b).length < fuel) :
    divAtol fuel m str (a ++ y ++ b).length =
      some (((if y.all isDigit then min (digitsValue y) longMax else 0 : Nat) : Int), m) := by
  have hpos : 0 < y.length := List.length_pos_iff.2 hne
  have hlen : (a ++ y ++ b).length = a.length + y.length + b.length := by simp [Nat.add_assoc]
  rw [hlen] at hf ⊢
  rw [List.append_assoc, Stream'.append_append_stream, Stream'.append_append_stream] at hd
  have hdp : m.drop (str + a.length) = y ++ₛ (b ++ₛ Stream'.cons c r) := by
    rw [← Stream'.drop_drop, hd, drop_append_of_eq _ _ rfl]
  have hdb : m.drop (str + a.length + y.length) = b ++ₛ Stream'.cons c r := by
    rw [← Stream'.drop_drop, hdp, drop_append_of_eq _ _ rfl]
  have ht : divTrim fuel m (str + (a.length + y.length + b.length) - 1) str =
      some (str + a.length + y.length - 1, str + a.length) := by
    refine divTrim_between (by omega) ?_ ?_ ?_ ?_ (by omega) (by omega) (by omega) (by omega)
    · intro i h1 h2
      obtain ⟨k, rfl⟩ := Nat.exists_eq_add_of_le h1
      rw [get_append_add hd (by omega : k < a.length)]
      exact ha _ (List.getElem_mem _)
    · intro i h1 h2
      obtain ⟨k, rfl⟩ := Nat.exists_eq_add_of_le (show str + a.length + y.length ≤ i by omega)
      rw [get_append_add hdb (by omega : k < b.length)]
      exact isTailBlank_of_isBlank (hb _ (List.getElem_mem _))
    · rw [← Nat.add_zero (str + a.length), get_append_add hdp hpos, ← List.head_eq_getElem hne]
      exact hhead
    · rw [Nat.add_sub_assoc hpos, get_append_add hdp (by omega : y.length - 1 < y.length), ← List.getLast_eq_getElem hne]
      exact hlast
  rw [divAtol_of_trim ht, show str + a.length + y.length - 1 + 1 - (str + a.length) = y.length by omega, hdp,
    take_append_of_eq _ _ rfl]
  split
  · rename_i hdigits
    have hend : ∃ e r', Ends e ∧ (cutAt m str (a.length + y.length + b.length) (str + a.length + y.length - 1)).drop
        (str + a.length) = y ++ₛ Stream'.cons e r' := by
      rw [cutAt]
      split
      · refine ⟨0, (y ++ₛ (b ++ₛ Stream'.cons c r)).drop (y.length + 1), Or.inl rfl, ?_⟩
        rw [show str + a.length + y.length - 1 + 1 = str + a.length + y.length by omega, drop_write_add, write, hdp,
          take_append_of_eq _ _ rfl, Stream'.append_append_stream]
        rfl
      · have hnil : b = [] := List.length_eq_zero_iff.1 (by omega)
        rw [hnil] at hdp
        exact ⟨c, r, hc, hdp⟩
    obtain ⟨e, r', he, hdrop⟩ := hend
    rw [atol_digits hdrop (List.all_eq_true.1 hdigits) he (by omega)]
    rfl
  · rfl

/-- **One number**: the text between a name and the end of its pair. -/
theorem divAtol_eq {x : Bytes} {c : UInt8} {r : Mem} (hd : m.drop str = x ++ₛ Stream'.cons c r)
    (hx : ∀ b ∈ x, b ≠ carriageReturn ∧ b ≠ lineFeed) (hc : Ends c) (hstr : 0 < str)
    (hbefore : isTailBlank (m.get (str - 1)) = false) (hf : x.length < fuel) :
    divAtol fuel m str x.length = some (((cookieNumber x : Nat) : Int), m) := by
  rcases trimmed_cases x with ⟨hall, hnil⟩ | ⟨a, b, hsplit, ha, hb, hne, hhead, hlast⟩
  · have hnum : cookieNumber x = 0 := by simp [cookieNumber, hnil]
    have hget : ∀ k < x.length, isBlank (m.get (str + k)) = true := by
      intro k hk
      rw [get_append_add hd hk]
      exact hall _ (List.getElem_mem hk)
    have hend : isBlank (m.get (str + x.length)) = false := by
      rw [get_append_length hd]
      exact hc.no_number.2.2.2.2
    rw [hnum]
    have htrim : (∃ k < x.length, divTrim fuel m (str + x.length - 1) str = some (str + k, str + k)) ∨
        divTrim fuel m (str + x.length - 1) str = some (str - 1, str + x.length) :=
      divTrim_blank hget hstr hbefore hend (Nat.zero_le _) (by omega) rfl hf
    rcases htrim with ⟨k, hk, ht⟩ | ht
    · -- they meet on a blank, which is no digit
      rw [divAtol_of_trim ht]
      have hno : ((m.drop (str + k)).take (str + k + 1 - (str + k))).all isDigit = false := by
        rw [Nat.add_sub_cancel_left, Stream'.take_succ, Stream'.take_zero, Stream'.head_drop]
        simp [isDigit_of_isBlank (hget k hk)]
      rw [hno]
      rfl
    · -- they stop outside: nothing is checked, and `atol` reads the end
      rw [divAtol_of_trim ht]
      have hempty : ((m.drop (str + x.length)).take (str - 1 + 1 - (str + x.length))) = [] := by
        rw [show str - 1 + 1 - (str + x.length) = 0 by omega]
        rfl
      have hdrop : (cutAt m str x.length (str - 1)).drop (str + x.length) = [] ++ₛ Stream'.cons c r := by
        have hm : m.drop (str + x.length) = Stream'.cons c r := by
          rw [← Stream'.drop_drop, hd, drop_append_of_eq _ _ rfl]
        rw [cutAt]
        split
        · rw [drop_write_behind _ _ (by simp; omega)]
          exact hm
        · exact hm
      rw [hempty, atol_digits hdrop (by simp) hc (by simp; omega)]
      rfl
  · have hnum : cookieNumber x = if (trimmed x).all isDigit then min (digitsValue (trimmed x)) longMax else 0 := by
      simp [cookieNumber, hne]
    have hmem : ∀ c ∈ trimmed x, c ∈ x := by
      intro c hc
      rw [hsplit]
      exact List.mem_append_left _ (List.mem_append_right _ hc)
    have hend := hx _ (hmem _ (List.getLast_mem hne))
    rw [hnum]
    rw [hsplit] at hd hf
    have htext := divAtol_text hd ha hb hne hhead ((isTailBlank_eq hend).trans hlast) hc hf
    rwa [← hsplit] at htext

end Number

/-! ## One pair -/

section Pair

variable {m : Mem} {fuel str : Nat}

/-- The bytes of a value that ends in NUL, up to a `;`. -/
def PairText (x : Bytes) : Prop := ∀ c ∈ x, c ≠ 0 ∧ c ≠ carriageReturn ∧ c ≠ lineFeed ∧ c ≠ semicolon

theorem ngxStrnstr_found {n : Nat} {x : Bytes} {r : Mem} (hd : m.drop str = x ++ₛ Stream'.cons semicolon r)
    (hx : PairText x) (hn : x.length < n) : ngxStrnstr m semicolon n str = some (str + x.length) := by
  induction x generalizing n str with
  | nil =>
    obtain ⟨n, rfl⟩ := Nat.exists_eq_add_of_lt hn
    have hget : m.get str = semicolon := get_append_length hd
    have h0 : semicolon ≠ 0 := by decide
    simp [ngxStrnstr, hget, h0]
  | cons b x ih =>
    obtain ⟨n, rfl⟩ : ∃ k, n = k + 1 := ⟨n - 1, by omega⟩
    have hget : m.get str = b := get_append_add hd (Nat.succ_pos _)
    have hdrop : m.drop (str + 1) = x ++ₛ Stream'.cons semicolon r := by
      rw [← Stream'.drop_drop, hd]
      rfl
    obtain ⟨h0, -, -, hs⟩ := hx b List.mem_cons_self
    simp only [ngxStrnstr, hget, if_neg h0, if_neg hs]
    rw [ih hdrop (fun c hc => hx c (List.mem_cons_of_mem _ hc)) (Nat.lt_of_succ_lt_succ hn), List.length_cons]
    congr 1
    omega

theorem ngxStrnstr_none {x : Bytes} {r : Mem} (hd : m.drop str = x ++ₛ r) (hx : PairText x) :
    ngxStrnstr m semicolon x.length str = none := by
  induction x generalizing str with
  | nil => rfl
  | cons b x ih =>
    have hget : m.get str = b := get_append_add hd (Nat.succ_pos _)
    have hdrop : m.drop (str + 1) = x ++ₛ r := by
      rw [← Stream'.drop_drop, hd]
      rfl
    obtain ⟨h0, -, -, hs⟩ := hx b List.mem_cons_self
    simp only [List.length_cons, ngxStrnstr, hget, if_neg h0, if_neg hs]
    exact ih hdrop fun c hc => hx c (List.mem_cons_of_mem _ hc)

/-- What a pair does to the values, its leading blanks aside. -/
def setCookie (req : ReqVal) (x : Bytes) : ReqVal :=
  match ngxHttpDiversionConfCookies.zipIdx.reverse.find? fun c => c.1.isPrefixOf x with
  | none => req
  | some (name, j) => Function.update req (j + 1) (cookieNumber (x.drop name.length))

theorem name_ends : ∀ c ∈ ngxHttpDiversionConfCookies.zipIdx.reverse,
    (∀ e ∈ c.1, e ≠ 0 ∧ e ≠ semicolon) ∧ c.1.getLast? = some equals := by
  decide +kernel

theorem cookieNumber_le (x : Bytes) : cookieNumber x ≤ longMax := by
  rw [cookieNumber]
  split
  · exact Nat.min_le_right _ _
  · exact Nat.zero_le _

/-- **One pair** of a value. -/
theorem matchCookie_eq {x : Bytes} {c : UInt8} {r : Mem} (hd : m.drop str = x ++ₛ Stream'.cons c r) (hx : PairText x)
    (hc : Ends c) (hf : x.length < fuel) (req : ReqVal) :
    matchCookie fuel m str x.length req = some (setCookie req x, m) := by
  have hfind : ngxHttpDiversionConfCookies.zipIdx.reverse.find? (fun e => (m.drop str).take e.1.length == e.1) =
      ngxHttpDiversionConfCookies.zipIdx.reverse.find? fun e => e.1.isPrefixOf x := by
    refine List.find?_congr fun e he => ?_
    have hno : c ∉ e.1 := by
      intro hmem
      obtain ⟨h0, hs⟩ := (name_ends e he).1 c hmem
      exact hc.elim h0 hs
    rw [Bool.eq_iff_iff, beq_iff_eq, List.isPrefixOf_iff_prefix, hd]
    exact take_append_cons_eq_iff hno r
  rw [matchCookie, setCookie, hfind]
  cases hf' : ngxHttpDiversionConfCookies.zipIdx.reverse.find? fun e => e.1.isPrefixOf x with
  | none => rfl
  | some e =>
    obtain ⟨name, j⟩ := e
    have hmem := List.mem_of_find?_eq_some hf'
    have hpre : name.isPrefixOf x = true := List.find?_some (p := fun e : Bytes × Nat => e.1.isPrefixOf x) hf'
    obtain ⟨rest, rfl⟩ := List.isPrefixOf_iff_prefix.1 hpre
    have hlast := (name_ends _ hmem).2
    have hne : name ≠ [] := by
      rintro rfl
      cases hlast
    have hpos := List.length_pos_iff.2 hne
    rw [Stream'.append_append_stream] at hd
    have hrest : m.drop (str + name.length) = rest ++ₛ Stream'.cons c r := by
      rw [← Stream'.drop_drop, hd, drop_append_of_eq _ _ rfl]
    have hbefore : isTailBlank (m.get (str + name.length - 1)) = false := by
      have hget : name[name.length - 1] = equals := by
        rw [← List.getLast_eq_getElem hne]
        exact Option.some.inj ((List.getLast?_eq_some_getLast hne).symm.trans hlast)
      rw [Nat.add_sub_assoc hpos, get_append_add hd (by omega : name.length - 1 < name.length), hget]
      decide
    have hplain : ∀ b ∈ rest, b ≠ carriageReturn ∧ b ≠ lineFeed := fun b hb =>
      ⟨(hx b (List.mem_append_right _ hb)).2.1, (hx b (List.mem_append_right _ hb)).2.2.1⟩
    have hlen : rest.length < fuel := by
      rw [List.length_append] at hf
      omega
    have hnum := divAtol_eq hrest hplain hc (by omega) hbefore hlen
    have hle := cookieNumber_le rest
    simp only [List.length_append, sizeSub_add_left, hnum, Option.bind_eq_bind, Option.bind_some, List.drop_left]
    have hcast : (((cookieNumber rest : Nat) : Int) % 2 ^ 64).toNat = cookieNumber rest := by
      rw [longMax] at hle
      omega
    rw [hcast]
    rfl

end Pair

/-! ## One value -/

section Value

variable {m : Mem}

/-- Leading blanks of the first pair do not matter. -/
theorem foldl_pairs_dropWhile (w : Bytes) (req : ReqVal) :
    ((w.dropWhile isBlank).splitOn semicolon).foldl (fun req x => setCookie req (x.dropWhile isBlank)) req =
      (w.splitOn semicolon).foldl (fun req x => setCookie req (x.dropWhile isBlank)) req := by
  induction w with
  | nil => rfl
  | cons b w ih =>
    by_cases hb : isBlank b = true
    · have hne : (b == semicolon) = false := by
        rw [beq_eq_false_iff_ne]
        rintro rfl
        exact absurd hb (by decide)
      rw [List.dropWhile_cons_of_pos hb, ih, List.splitOn_cons_eq_if_modifyHead, hne]
      cases hsplit : w.splitOn semicolon with
      | nil => exact absurd hsplit (List.splitOn_ne_nil _ _)
      | cons x xs => simp [List.dropWhile_cons_of_pos hb]
    · rw [List.dropWhile_cons_of_neg hb]

theorem scanPairs_last {len fuel str plen : Nat} {req : ReqVal}
    (hp : ngxStrnstr m semicolon (sizeSub len str) str = none) :
    scanPairs len (fuel + 1) m str plen req = matchCookie (len + 1) m str plen req := by
  rw [scanPairs, hp]
  simp only
  cases matchCookie (len + 1) m str plen req <;> rfl

theorem scanPairs_more {len fuel str plen p str' : Nat} {req req' : ReqVal}
    (hp : ngxStrnstr m semicolon (sizeSub len str) str = some p)
    (hmatch : matchCookie (len + 1) m str (p - str) req = some (req', m))
    (hseek : seek isBlank m (len + 1) (p + 1) = some str') :
    scanPairs len (fuel + 1) m str plen req =
      scanPairs len fuel m str' (sizeSub (sizeSub len (p + 1)) (str' - (p + 1))) req' := by
  rw [scanPairs, hp]
  simp only [hmatch, hseek, Option.bind_eq_bind, Option.bind_some]

/-- Blanks in front of a text that ends in NUL are skipped. -/
theorem seek_isBlank {i fuel : Nat} {w : Bytes} {after : Mem} (hd : m.drop i = w ++ₛ Stream'.cons 0 after)
    (hf : w.length < fuel) : seek isBlank m fuel i = some (i + (w.takeWhile isBlank).length) := by
  have hsplit : w.takeWhile isBlank ++ w.dropWhile isBlank = w := List.takeWhile_append_dropWhile
  have hlen : (w.takeWhile isBlank).length < fuel := by
    have h := congrArg List.length hsplit
    rw [List.length_append] at h
    omega
  have hblank : ∀ b ∈ w.takeWhile isBlank, isBlank b = true := fun _ => List.mem_takeWhile_imp
  rw [← hsplit, Stream'.append_append_stream] at hd
  cases hrest : w.dropWhile isBlank with
  | nil =>
    rw [hrest] at hd
    exact seek_eq hd hblank (by decide) hlen
  | cons c r =>
    have hc : isBlank c = false := by
      have hhead := List.head_dropWhile_not isBlank (l := w) (by rw [hrest]; simp)
      simpa only [hrest, List.head_cons] using hhead
    rw [hrest] at hd
    exact seek_eq hd hblank hc hlen

theorem dropWhile_left {x w : Bytes} {c : UInt8} (h : (x ++ c :: w).dropWhile isBlank = x ++ c :: w) :
    x.dropWhile isBlank = x := by
  cases x with
  | nil => rfl
  | cons b x =>
    by_cases hb : isBlank b = true
    · rw [List.cons_append, List.dropWhile_cons_of_pos hb] at h
      have hlen := (List.dropWhile_sublist isBlank (l := x ++ c :: w)).length_le
      rw [h, List.length_cons] at hlen
      omega
    · exact List.dropWhile_cons_of_neg hb

theorem pairText_of_not_mem {x : Bytes} (hplain : ∀ c ∈ x, c ≠ 0 ∧ c ≠ carriageReturn ∧ c ≠ lineFeed)
    (hx : semicolon ∉ x) : PairText x := fun c hc =>
  ⟨(hplain c hc).1, (hplain c hc).2.1, (hplain c hc).2.2, fun h => hx (h ▸ hc)⟩

/-- What is left of a value behind a pair, its semicolon and the blanks. -/
theorem sizeSub_behind_pair {v pre x w : Bytes} (hv : v = pre ++ (x ++ semicolon :: w)) :
    sizeSub (sizeSub v.length (pre.length + x.length + 1))
      (pre.length + x.length + 1 + (w.takeWhile isBlank).length - (pre.length + x.length + 1)) =
        (w.dropWhile isBlank).length := by
  have hlens := congrArg List.length (List.takeWhile_append_dropWhile (p := isBlank) (l := w))
  rw [List.length_append] at hlens
  have hvlen : v.length = pre.length + (x.length + (w.length + 1)) := by
    rw [hv, List.length_append, List.length_append, List.length_cons]
  have hleft : sizeSub v.length (pre.length + x.length + 1) = w.length := by
    rw [hvlen, sizeSub_of_le (by omega)]
    omega
  rw [Nat.add_sub_cancel_left, hleft, sizeSub_of_le (by omega)]
  omega

/-- **One value**, from the pair that `str` points to. -/
theorem scanPairs_eq {v pre w : Bytes} {after : Mem} (hv : v = pre ++ w)
    (hplain : ∀ c ∈ v, c ≠ 0 ∧ c ≠ carriageReturn ∧ c ≠ lineFeed) (hw : w.dropWhile isBlank = w) {fuel : Nat}
    (hf : w.length < fuel) (req : ReqVal) :
    scanPairs v.length fuel (v ++ₛ Stream'.cons 0 after) pre.length w.length req =
      some ((w.splitOn semicolon).foldl (fun req x => setCookie req (x.dropWhile isBlank)) req,
        v ++ₛ Stream'.cons 0 after) := by
  induction fuel generalizing pre w req with
  | zero => exact absurd hf (Nat.not_lt_zero _)
  | succ fuel ih =>
    have hlen : sizeSub v.length pre.length = w.length := by
      rw [hv, List.length_append, sizeSub_add_left]
    have hd : (v ++ₛ Stream'.cons 0 after).drop pre.length = w ++ₛ Stream'.cons 0 after := by
      rw [hv, Stream'.append_append_stream, drop_append_of_eq _ _ rfl]
    have hwv : ∀ c ∈ w, c ∈ v := fun c hc => hv ▸ List.mem_append_right _ hc
    have hle : w.length < v.length + 1 := by
      rw [hv, List.length_append]
      omega
    by_cases hmem : semicolon ∈ w
    · obtain ⟨x, w', rfl, hx⟩ := List.eq_append_cons_of_mem hmem
      have hpair := pairText_of_not_mem (fun c hc => hplain c (hwv c (List.mem_append_left _ hc))) hx
      rw [List.length_append, List.length_cons] at hf hle hlen
      have hsplit : w'.takeWhile isBlank ++ w'.dropWhile isBlank = w' := List.takeWhile_append_dropWhile
      have hlens := congrArg List.length hsplit
      rw [List.length_append] at hlens
      have hdx : (v ++ₛ Stream'.cons 0 after).drop pre.length =
          x ++ₛ Stream'.cons semicolon (w' ++ₛ Stream'.cons 0 after) := by
        rw [hd, Stream'.append_append_stream]
        rfl
      have hdw : (v ++ₛ Stream'.cons 0 after).drop (pre.length + x.length + 1) = w' ++ₛ Stream'.cons 0 after := by
        rw [← Stream'.drop_drop, ← Stream'.drop_drop, hdx, drop_append_of_eq _ _ rfl]
        rfl
      have hmatch : matchCookie (v.length + 1) (v ++ₛ Stream'.cons 0 after) pre.length (pre.length + x.length - pre.length)
          req = some (setCookie req x, v ++ₛ Stream'.cons 0 after) := by
        rw [Nat.add_sub_cancel_left]
        exact matchCookie_eq hdx hpair (Or.inr rfl) (by omega) req
      rw [scanPairs_more (by rw [hlen]; exact ngxStrnstr_found hdx hpair (by omega)) hmatch
        (seek_isBlank hdw (by omega))]
      have hv' : v = (pre ++ x ++ semicolon :: w'.takeWhile isBlank) ++ w'.dropWhile isBlank := by
        rw [hv, List.append_assoc, List.append_assoc, List.cons_append, hsplit]
      have hpos : pre.length + x.length + 1 + (w'.takeWhile isBlank).length =
          (pre ++ x ++ semicolon :: w'.takeWhile isBlank).length := by
        simp only [List.length_append, List.length_cons]
        omega
      rw [sizeSub_behind_pair hv, hpos, ih hv' (List.dropWhile_idempotent isBlank w') (by omega), foldl_pairs_dropWhile,
        List.splitOn_append_cons_self_of_not_mem hx, List.foldl_cons, dropWhile_left hw]
    · have hpair := pairText_of_not_mem (fun c hc => hplain c (hwv c hc)) hmem
      rw [scanPairs_last (by rw [hlen]; exact ngxStrnstr_none hd hpair), matchCookie_eq hd hpair (Or.inl rfl) hle,
        List.splitOn_eq_singleton hmem, List.foldl_cons, List.foldl_nil, hw]

end Value

/-! ## All values -/

theorem CookieHeader.dropWhile_value (h : CookieHeader) : h.value.dropWhile isBlank = h.value := by
  have hlead := h.noLead
  cases hv : h.value with
  | nil => rfl
  | cons b w =>
    rw [hv] at hlead
    have hb : isBlank b = false := hlead b rfl
    exact List.dropWhile_cons_of_neg (by simp [hb])

theorem pairs_cons (h : CookieHeader) (hs : List CookieHeader) :
    pairs (h :: hs) = h.value.splitOn semicolon ++ pairs hs :=
  List.flatMap_cons

/-- **The scan** goes through the pairs of all headers and leaves the headers as they were. -/
theorem scanCookies_eq (hs : List CookieHeader) (req : ReqVal) :
    scanCookies hs req =
      some ((pairs hs).foldl (fun req x => setCookie req (x.dropWhile isBlank)) req, hs.map CookieHeader.mem) := by
  induction hs generalizing req with
  | nil => rfl
  | cons h hs ih =>
    have hone : scanPairs h.value.length (h.value.length + 1) h.mem 0 h.value.length req =
        some ((h.value.splitOn semicolon).foldl (fun req x => setCookie req (x.dropWhile isBlank)) req, h.mem) :=
      scanPairs_eq (List.nil_append h.value).symm h.plain h.dropWhile_value (Nat.lt_succ_self _) req
    rw [scanCookies, hone]
    simp only [Option.bind_eq_bind, Option.bind_some, ih]
    rw [pairs_cons, List.foldl_append]
    rfl

theorem name_unique : ∀ e ∈ ngxHttpDiversionConfCookies.zipIdx, ∀ e' ∈ ngxHttpDiversionConfCookies.zipIdx,
    e.1.length = e'.1.length ∧ (e.1 = e'.1 ∨ e.2 = e'.2 → e = e') := by
  decide

/-- What a pair does to one value. -/
theorem setCookie_apply {name : Bytes} {j : Nat} (hj : (name, j) ∈ ngxHttpDiversionConfCookies.zipIdx) (req : ReqVal)
    (x : Bytes) : setCookie req x (j + 1) = if name <+: x then cookieNumber (x.drop name.length) else req (j + 1) := by
  rw [setCookie]
  cases hf : ngxHttpDiversionConfCookies.zipIdx.reverse.find? fun e => e.1.isPrefixOf x with
  | none =>
    have hno := List.find?_eq_none.1 hf (name, j) (List.mem_reverse.2 hj)
    rw [List.isPrefixOf_iff_prefix] at hno
    rw [if_neg hno]
  | some e =>
    obtain ⟨name', j'⟩ := e
    have hmem := List.mem_reverse.1 (List.mem_of_find?_eq_some hf)
    have hpre : name'.isPrefixOf x = true := List.find?_some (p := fun e : Bytes × Nat => e.1.isPrefixOf x) hf
    obtain ⟨hlen, heq⟩ := name_unique _ hj _ hmem
    split
    · rename_i hx
      have hname : name = name' :=
        (List.prefix_of_prefix_length_le hx (List.isPrefixOf_iff_prefix.1 hpre) hlen.le).eq_of_length hlen
      obtain ⟨rfl, rfl⟩ := Prod.mk.inj (heq (Or.inl hname))
      exact Function.update_self _ _ _
    · rename_i hx
      refine Function.update_of_ne (fun he => ?_) _ _
      obtain ⟨rfl, rfl⟩ := Prod.mk.inj (heq (Or.inr (Nat.succ.inj he)))
      exact hx (List.isPrefixOf_iff_prefix.1 hpre)

theorem textsOf_concat (name : Bytes) (ps : List Bytes) (x : Bytes) :
    textsOf name (ps ++ [x]) =
      textsOf name ps ++ if name <+: x.dropWhile isBlank then [(x.dropWhile isBlank).drop name.length] else [] := by
  rw [textsOf, List.filterMap_append, textsOf]
  split
  · rename_i hx
    simp [hx]
  · rename_i hx
    simp [hx]

/-- The last pair decides. -/
theorem foldl_setCookie {name : Bytes} {j : Nat} (hj : (name, j) ∈ ngxHttpDiversionConfCookies.zipIdx) (ps : List Bytes) :
    ps.foldl (fun req x => setCookie req (x.dropWhile isBlank)) (fun _ => 0) (j + 1) =
      cookieValue cookieNumber name ps := by
  induction ps using List.reverseRecOn with
  | nil => rfl
  | append_singleton ps x ih =>
    rw [List.foldl_concat, setCookie_apply hj, ih, cookieValue, cookieValue, textsOf_concat]
    split
    · rw [List.getLast?_concat]
    · rw [List.append_nil]

/-- **Cookies**: for all headers, each value is the number of the last pair with its name, and every byte of
the headers is as it was. -/
theorem cookies_exact (hs : List CookieHeader) : CookiesAre cookieNumber hs :=
  ⟨_, scanCookies_eq hs _, fun _ _ hj => foldl_setCookie hj (pairs hs)⟩

/-- The number, where it is below 2^63. -/
def boundedNumber (rest : Bytes) : Nat :=
  if trimmed rest ≠ [] ∧ (trimmed rest).all isDigit ∧ digitsValue (trimmed rest) < 2 ^ 63 then digitsValue (trimmed rest)
  else 0

/-- `aid=9223372036854775808`. -/
def bigAid : CookieHeader where
  value := ascii ['a', 'i', 'd', '=', '9', '2', '2', '3', '3', '7', '2', '0', '3', '6', '8', '5', '4', '7', '7', '5', '8',
    '0', '8']
  after := Stream'.const 0
  plain := by decide +kernel
  noLead := by decide +kernel

/-- A number that a `long` does not hold is stored as the largest one. -/
theorem cookies_saturate : ¬ CookiesAre boundedNumber [bigAid] := by
  rintro ⟨req, hscan, hval⟩
  have hreq : req 1 = 2 ^ 63 - 1 := by
    have hone : (scanCookies [bigAid] fun _ => 0).map (fun r => r.1 1) = some (2 ^ 63 - 1) := by decide +kernel
    rw [hscan] at hone
    exact Option.some.inj hone
  have hbound : req 1 = cookieValue boundedNumber (ascii ['a', 'i', 'd', '=']) (pairs [bigAid]) := hval _ 0 (by decide)
  have hzero : cookieValue boundedNumber (ascii ['a', 'i', 'd', '=']) (pairs [bigAid]) = 0 := by decide +kernel
  rw [hreq, hzero] at hbound
  cases hbound

end NgxPlus.Diversion
