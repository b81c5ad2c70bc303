import Mathlib.Data.List.TakeWhile
import Mathlib.Logic.Function.Basic
import NgxPlus.Mqtt.Topic

/-!
# Arguments behind a client id or a topic (`mqtt.lua:801-828`, `:1111-1137`)

| here | there |
| --- | --- |
| `wordByte`, `matchAt`, `gmatch` | `ngx.re.gmatch(args, "(&)(\\w+)=([-]?\\w+)")` and its iterator |
| `Numbers`, `setMatches`         | `Subscribe[m[2]] = tonumber(m[3])`, once for each match |
| `nameMin`, `nameMax`, `nameQos`, `nameTopicFilter` | the keys that the scripts read or write by name |

No byte is in two of the classes of the expression, so a match has one shape: as many word bytes
as there are, the `=`, a `-` if there is one, and again as many word bytes as there are. Where
that fails at an `&`, the search goes on behind it.

`tonumber` is a parameter: which digits, hexadecimal forms and words such as `inf` it takes is up
to the interpreter. What it makes of a match is never a fraction, since a match has neither a
point nor a negative exponent.
-/

namespace NgxPlus.Mqtt

open ByteMem

/-- `\w` in the C locale. -/
def wordByte (c : UInt8) : Bool :=
  (0x30 ≤ c && c ≤ 0x39) || (0x41 ≤ c && c ≤ 0x5a) || c == 0x5f || (0x61 ≤ c && c ≤ 0x7a)

structure Match where
  name : Bytes
  value : Bytes
  /-- Where the search goes on. -/
  rest : Bytes
deriving DecidableEq, Repr

/-- `[-]?`. -/
def splitSign : Bytes → Bytes × Bytes
  | [] => ([], [])
  | c :: bs => if c = 0x2d then ([c], bs) else ([], c :: bs)

/-- `[-]?\w+` behind the `=`. -/
def matchValue (name : Bytes) (bs : Bytes) : Option Match :=
  let (sign, digits) := splitSign bs
  if digits.takeWhile wordByte = [] then none
  else some ⟨name, sign ++ digits.takeWhile wordByte, digits.dropWhile wordByte⟩

/-- The expression at the first byte. -/
def matchAt : Bytes → Option Match
  | [] => none
  | c :: bs =>
    if c = 0x26 ∧ bs.takeWhile wordByte ≠ [] then
      match bs.dropWhile wordByte with
      | [] => none
      | e :: vs => if e = 0x3d then matchValue (bs.takeWhile wordByte) vs else none
    else none

/-- All matches; each round takes a byte or more. -/
def gmatch : Nat → Bytes → List (Bytes × Bytes)
  | 0, _ => []
  | _ + 1, [] => []
  | fuel + 1, c :: bs =>
    match matchAt (c :: bs) with
    | some m => (m.name, m.value) :: gmatch fuel m.rest
    | none => gmatch fuel bs

def argMatches (args : Bytes) : List (Bytes × Bytes) := gmatch args.length args

inductive LuaNumber
  | nan
  | inf (negative : Bool)
  | int (n : Int)
deriving DecidableEq, Repr

/-- `a < n`. -/
def LuaNumber.lt (n : Int) : LuaNumber → Bool
  | .nan => false
  | .inf negative => negative
  | .int a => a < n

/-- `a - b > n`. -/
def LuaNumber.subGt (n : Int) : LuaNumber → LuaNumber → Bool
  | .nan, _ => false
  | _, .nan => false
  | .inf neg, .inf neg' => !neg && neg'
  | .inf neg, .int _ => !neg
  | .int _, .inf neg' => neg'
  | .int a, .int b => a - b > n

/-- `tonumber` of a text of decimal digits, with or without a sign; other texts are not read. -/
def decimalNumber (bs : Bytes) : Option LuaNumber :=
  let (sign, digits) := splitSign bs
  if digits ≠ [] ∧ digits.all (fun c => 0x30 ≤ c && c ≤ 0x39) then
    let n : Int := digits.foldl (fun n c => 10 * n + (c.toNat - 0x30)) 0
    some (.int (if sign = [] then n else -n))
  else none

/-- The entries of a table that are numbers. -/
abbrev Numbers := Bytes → Option LuaNumber

def setMatches (tonumber : Bytes → Option LuaNumber) (t : Numbers) (ms : List (Bytes × Bytes)) : Numbers :=
  ms.foldl (fun t m => Function.update t m.1 (tonumber m.2)) t

def nameMin : Bytes := [0x6d, 0x69, 0x6e]
def nameMax : Bytes := [0x6d, 0x61, 0x78]
def nameQos : Bytes := [0x71, 0x6f, 0x73]
def nameTopicFilter : Bytes := [0x74, 0x6f, 0x70, 0x69, 0x63, 0x46, 0x69, 0x6c, 0x74, 0x65, 0x72]

/-- `"&"`. -/
def ampersand : Bytes := [0x26]

/-! ## Where the arguments start -/

/-- The position of the first `&` in what the C library sees. -/
theorem ngxStrstr_singleton (c : UInt8) (bs : Bytes) :
    ngxStrstr bs [c] = if c ∈ bs then some (bs.takeWhile (· != c)).length else none := by
  induction bs with
  | nil => simp [ngxStrstr]
  | cons b bs ih =>
    unfold ngxStrstr
    by_cases hb : b = c
    · simp [hb, List.isPrefixOf]
    · have hcb : (c == b) = false := by simpa using Ne.symm hb
      rw [ih]
      by_cases hc : c ∈ bs
      · simp [List.isPrefixOf, hcb, hb, hc]
      · simp [List.isPrefixOf, hcb, Ne.symm hb, hc]

theorem indexOf_ampersand {text : Bytes} (h0 : 0 ∉ text) :
    luaUtilityIndexOf text ampersand =
      if 0x26 ∈ text then ((text.takeWhile (· != 0x26)).length : Int) else -1 := by
  have hamp : cString ampersand = [0x26] := by decide
  unfold luaUtilityIndexOf
  rw [cString_eq_self h0, hamp, ngxStrstr_singleton]
  by_cases h : 0x26 ∈ text
  · simp [h]
  · simp [h]

/-- Text without an `&` has no arguments, whatever NUL bytes it contains. -/
theorem indexOf_ampersand_none {text : Bytes} (h : 0x26 ∉ text) : luaUtilityIndexOf text ampersand = -1 := by
  have hamp : cString ampersand = [0x26] := by decide
  have hnone : 0x26 ∉ cString text := fun hm => h ((List.takeWhile_prefix _).subset hm)
  unfold luaUtilityIndexOf
  rw [hamp, ngxStrstr_singleton, if_neg hnone]

/-! ## Well-formed arguments are read back -/

/-- `&name=value`, with a value that may have a sign. -/
structure Argument where
  name : Bytes
  negative : Bool
  digits : Bytes
  name_ne : name ≠ []
  name_word : ∀ c ∈ name, wordByte c
  digits_ne : digits ≠ []
  digits_word : ∀ c ∈ digits, wordByte c

def Argument.value (a : Argument) : Bytes := (if a.negative then [0x2d] else []) ++ a.digits

def Argument.text (a : Argument) : Bytes := 0x26 :: (a.name ++ 0x3d :: a.value)

/-- What follows an argument: another one or nothing. -/
def EndsWord (rest : Bytes) : Prop := ∀ c ∈ rest.head?, wordByte c = false

theorem span_word {w rest : Bytes} (hw : ∀ c ∈ w, wordByte c) (hr : EndsWord rest) :
    (w ++ rest).takeWhile wordByte = w ∧ (w ++ rest).dropWhile wordByte = rest := by
  cases rest with
  | nil =>
    rw [List.append_nil]
    exact ⟨List.takeWhile_eq_self_iff.2 hw, List.dropWhile_eq_nil_iff.2 hw⟩
  | cons c rest =>
    have hc : wordByte c = false := hr c rfl
    constructor
    · rw [List.takeWhile_append_of_pos hw, List.takeWhile_cons_of_neg (by simp [hc]), List.append_nil]
    · rw [List.dropWhile_append_of_pos hw, List.dropWhile_cons_of_neg (by simp [hc])]

theorem matchValue_value (a : Argument) {rest : Bytes} (hr : EndsWord rest) :
    matchValue a.name (a.value ++ rest) = some ⟨a.name, a.value, rest⟩ := by
  obtain ⟨htake, hdrop⟩ := span_word a.digits_word hr
  have hsplit : splitSign (a.value ++ rest) = (if a.negative then [0x2d] else [], a.digits ++ rest) := by
    unfold Argument.value
    cases a.negative with
    | true => rfl
    | false =>
      obtain ⟨d, ds, hd⟩ := List.exists_cons_of_ne_nil a.digits_ne
      have hword : wordByte d := a.digits_word d (by simp [hd])
      have hsign : d ≠ 0x2d := fun h => by rw [h] at hword; exact absurd hword (by decide)
      simp [hd, splitSign, hsign]
  unfold matchValue
  rw [hsplit]
  simp [htake, hdrop, a.digits_ne, Argument.value]

theorem matchAt_text (a : Argument) {rest : Bytes} (hr : EndsWord rest) :
    matchAt (a.text ++ rest) = some ⟨a.name, a.value, rest⟩ := by
  have heq : EndsWord (0x3d :: (a.value ++ rest)) := by
    intro c hc
    obtain rfl : 0x3d = c := by simpa using hc
    decide
  obtain ⟨htake, hdrop⟩ := span_word a.name_word heq
  have htext : a.text ++ rest = 0x26 :: (a.name ++ 0x3d :: (a.value ++ rest)) := by
    simp [Argument.text]
  rw [htext]
  simp [matchAt, htake, hdrop, a.name_ne, matchValue_value a hr]

theorem endsWord_texts (as : List Argument) : EndsWord (as.flatMap Argument.text) := by
  cases as with
  | nil => intro c hc; simp at hc
  | cons a as =>
    intro c hc
    obtain rfl : 0x26 = c := by simpa [Argument.text] using hc
    decide

theorem gmatch_texts (as : List Argument) (fuel : Nat) (h : (as.flatMap Argument.text).length ≤ fuel) :
    gmatch fuel (as.flatMap Argument.text) = as.map fun a => (a.name, a.value) := by
  induction as generalizing fuel with
  | nil => cases fuel with
    | zero => rfl
    | succ fuel => rfl
  | cons a as ih =>
    have hm := matchAt_text a (endsWord_texts as)
    simp only [List.flatMap_cons, List.length_append] at h ⊢
    have hlen : 1 ≤ a.text.length := by simp [Argument.text]
    cases fuel with
    | zero => omega
    | succ fuel =>
      have hcons : a.text ++ as.flatMap Argument.text =
          0x26 :: (a.name ++ 0x3d :: a.value ++ as.flatMap Argument.text) := by
        simp [Argument.text]
      rw [hcons] at hm ⊢
      unfold gmatch
      rw [hm]
      simp [ih fuel (by omega)]

/-- **Arguments are read back**: the iterator returns those that were written, in order. -/
theorem argMatches_texts (as : List Argument) :
    argMatches (as.flatMap Argument.text) = as.map fun a => (a.name, a.value) :=
  gmatch_texts as _ le_rfl

/-- A key that no match has keeps what the table had. -/
theorem setMatches_of_notMem (tonumber : Bytes → Option LuaNumber) {ms : List (Bytes × Bytes)} {name : Bytes}
    (h : ∀ m ∈ ms, m.1 ≠ name) (t : Numbers) : setMatches tonumber t ms name = t name := by
  induction ms generalizing t with
  | nil => rfl
  | cons m ms ih =>
    have hm : name ≠ m.1 := (h m List.mem_cons_self).symm
    calc setMatches tonumber t (m :: ms) name
        = setMatches tonumber (Function.update t m.1 (tonumber m.2)) ms name := rfl
      _ = Function.update t m.1 (tonumber m.2) name := ih (fun m' hm' => h m' (List.mem_cons_of_mem _ hm')) _
      _ = t name := Function.update_of_ne hm _ _

/-- What the table has under a key is from a match of that key, or was there. -/
theorem setMatches_eq_some {tonumber : Bytes → Option LuaNumber} {ms : List (Bytes × Bytes)} {t : Numbers}
    {name : Bytes} {v : LuaNumber} (h : setMatches tonumber t ms name = some v) :
    t name = some v ∨ ∃ m ∈ ms, m.1 = name ∧ tonumber m.2 = some v := by
  induction ms generalizing t with
  | nil => exact Or.inl h
  | cons m ms ih =>
    rcases ih (show setMatches tonumber (Function.update t m.1 (tonumber m.2)) ms name = some v from h) with ht | hms
    · by_cases hm : name = m.1
      · rw [hm, Function.update_self] at ht
        exact Or.inr ⟨m, List.mem_cons_self, hm.symm, ht⟩
      · rw [Function.update_of_ne hm] at ht
        exact Or.inl ht
    · obtain ⟨m', hm', hname, hv⟩ := hms
      exact Or.inr ⟨m', List.mem_cons_of_mem _ hm', hname, hv⟩

end NgxPlus.Mqtt
