import Mathlib.Data.List.Induction
import Mathlib.Data.List.Pairwise
import NgxPlus.Lib.AssocList
import NgxPlus.Lib.ByteMem
import NgxPlus.Lib.Decode

/-!
# The routing cache of the Redis cluster client (`lib/redis3.lua`)

| here | there |
| --- | --- |
| `redisCRC16`               | `_M.redisCRC16` (`:59-68`) with its table |
| `receive`, `receiveBytes`  | `sock:receive()` and `sock:receive(size)` on the bytes that come |
| `tonumber`                 | on decimal integers, which is what the protocol has |
| `Slot`, `Cache`            | `last_slot`; `self.cache`, a table with numbers as keys |
| `header`                   | the first line of `build_slots` (`:127-145`) |
| `readAddr`, `readAddrs`    | its loop over the addresses of a range (`:188-229`) |
| `buildSlot`, `buildSlots`  | `build_slots` with `status` 2 and 1 (`:126-241`) |
| `syncSlots`                | `_M.sync_slots` (`:265-292`) |
| `scan`, `connect`          | `_M.connect` (`:91-124`) |

A reply is written over the cache entry by entry, by position, and nothing is taken out; the
router looks at all entries and keeps the last match. What an earlier and longer reply left
behind the new one still answers (`slot_owner_iff`). `pairs` delivers the entries in an order of
its own, which is an argument of `connect`.
-/

namespace NgxPlus.Redis3

open ByteMem Decode

/-! ## Keys -/

def crc16tab : List UInt16 :=
  [0x0000, 0x1021, 0x2042, 0x3063, 0x4084, 0x50a5, 0x60c6, 0x70e7, 0x8108, 0x9129, 0xa14a, 0xb16b,
    0xc18c, 0xd1ad, 0xe1ce, 0xf1ef, 0x1231, 0x0210, 0x3273, 0x2252, 0x52b5, 0x4294, 0x72f7, 0x62d6,
    0x9339, 0x8318, 0xb37b, 0xa35a, 0xd3bd, 0xc39c, 0xf3ff, 0xe3de, 0x2462, 0x3443, 0x0420, 0x1401,
    0x64e6, 0x74c7, 0x44a4, 0x5485, 0xa56a, 0xb54b, 0x8528, 0x9509, 0xe5ee, 0xf5cf, 0xc5ac, 0xd58d,
    0x3653, 0x2672, 0x1611, 0x0630, 0x76d7, 0x66f6, 0x5695, 0x46b4, 0xb75b, 0xa77a, 0x9719, 0x8738,
    0xf7df, 0xe7fe, 0xd79d, 0xc7bc, 0x48c4, 0x58e5, 0x6886, 0x78a7, 0x0840, 0x1861, 0x2802, 0x3823,
    0xc9cc, 0xd9ed, 0xe98e, 0xf9af, 0x8948, 0x9969, 0xa90a, 0xb92b, 0x5af5, 0x4ad4, 0x7ab7, 0x6a96,
    0x1a71, 0x0a50, 0x3a33, 0x2a12, 0xdbfd, 0xcbdc, 0xfbbf, 0xeb9e, 0x9b79, 0x8b58, 0xbb3b, 0xab1a,
    0x6ca6, 0x7c87, 0x4ce4, 0x5cc5, 0x2c22, 0x3c03, 0x0c60, 0x1c41, 0xedae, 0xfd8f, 0xcdec, 0xddcd,
    0xad2a, 0xbd0b, 0x8d68, 0x9d49, 0x7e97, 0x6eb6, 0x5ed5, 0x4ef4, 0x3e13, 0x2e32, 0x1e51, 0x0e70,
    0xff9f, 0xefbe, 0xdfdd, 0xcffc, 0xbf1b, 0xaf3a, 0x9f59, 0x8f78, 0x9188, 0x81a9, 0xb1ca, 0xa1eb,
    0xd10c, 0xc12d, 0xf14e, 0xe16f, 0x1080, 0x00a1, 0x30c2, 0x20e3, 0x5004, 0x4025, 0x7046, 0x6067,
    0x83b9, 0x9398, 0xa3fb, 0xb3da, 0xc33d, 0xd31c, 0xe37f, 0xf35e, 0x02b1, 0x1290, 0x22f3, 0x32d2,
    0x4235, 0x5214, 0x6277, 0x7256, 0xb5ea, 0xa5cb, 0x95a8, 0x8589, 0xf56e, 0xe54f, 0xd52c, 0xc50d,
    0x34e2, 0x24c3, 0x14a0, 0x0481, 0x7466, 0x6447, 0x5424, 0x4405, 0xa7db, 0xb7fa, 0x8799, 0x97b8,
    0xe75f, 0xf77e, 0xc71d, 0xd73c, 0x26d3, 0x36f2, 0x0691, 0x16b0, 0x6657, 0x7676, 0x4615, 0x5634,
    0xd94c, 0xc96d, 0xf90e, 0xe92f, 0x99c8, 0x89e9, 0xb98a, 0xa9ab, 0x5844, 0x4865, 0x7806, 0x6827,
    0x18c0, 0x08e1, 0x3882, 0x28a3, 0xcb7d, 0xdb5c, 0xeb3f, 0xfb1e, 0x8bf9, 0x9bd8, 0xabbb, 0xbb9a,
    0x4a75, 0x5a54, 0x6a37, 0x7a16, 0x0af1, 0x1ad0, 0x2ab3, 0x3a92, 0xfd2e, 0xed0f, 0xdd6c, 0xcd4d,
    0xbdaa, 0xad8b, 0x9de8, 0x8dc9, 0x7c26, 0x6c07, 0x5c64, 0x4c45, 0x3ca2, 0x2c83, 0x1ce0, 0x0cc1,
    0xef1f, 0xff3e, 0xcf5d, 0xdf7c, 0xaf9b, 0xbfba, 0x8fd9, 0x9ff8, 0x6e17, 0x7e36, 0x4e55, 0x5e74,
    0x2e93, 0x3eb2, 0x0ed1, 0x1ef0]

def redisCRC16 (buf : Bytes) : UInt16 :=
  buf.foldl (fun crc b => (crc <<< 8) ^^^ crc16tab.getD ((crc >>> 8).toNat ^^^ b.toNat) 0) 0

def slotOf (key : Bytes) : Nat := (redisCRC16 key).toNat % 16384

/-! ## The reply -/

inductive Err
  /-- `"timeout"`, `"closed"` and so on. -/
  | sock
  /-- `"error reply: " .. line`. -/
  | errorReply (line : Bytes)
  /-- `"unkown prefix: \"" .. prefix .. "\""`. -/
  | unknownPrefix (c : UInt8)
deriving DecidableEq

/-- Why `build_slots` ends early: it returns an error, or a comparison or a concatenation with
`nil` raises one. -/
inductive Stop
  | err (e : Err)
  | raise
deriving DecidableEq

/-- A line without its end; carriage returns are left out. -/
def receive (sock : Bytes) : Except Stop (Bytes × Bytes) :=
  match sock.dropWhile (· != 10) with
  | [] => .error (.err .sock)
  | _ :: rest => .ok ((sock.takeWhile (· != 10)).filter (· != 13), rest)

def receiveBytes (size : Nat) (sock : Bytes) : Except Stop (Bytes × Bytes) :=
  if size ≤ sock.length then .ok (sock.take size, sock.drop size) else .error (.err .sock)

def isDigit (c : UInt8) : Bool := 0x30 ≤ c && c ≤ 0x39

def natOf (b : Bytes) : Option Nat :=
  if b ≠ [] ∧ b.all isDigit then some (b.foldl (fun n c => 10 * n + (c.toNat - 48)) 0) else none

def tonumber : Bytes → Option Int
  | 0x2d :: b => (natOf b).map fun n => -(n : Int)
  | b => (natOf b).map Int.ofNat

inductive Val
  | str (b : Bytes)
  | num (n : Int)
deriving DecidableEq

structure Slot where
  min : Option Int
  max : Option Int
  addrs : Option (List Val)
deriving DecidableEq

abbrev Cache := AssocList Nat Slot

/-- The line `*n`. -/
def header (sock : Bytes) : Except Stop (Int × Bytes) := do
  let (line, sock) ← receive sock
  match line with
  | [] => .error .raise
  | c :: number =>
    if c = 0x2a then
      match tonumber number with
      | none => .error .raise
      | some n => if n < 0 then .error (.err (.errorReply line)) else .ok (n, sock)
    else .error (.err (.unknownPrefix c))

/-- One address; `none` is the `return null`. -/
def readAddr (s : Slot) (sock : Bytes) : Except Stop (Option Slot × Bytes) := do
  let (_, sock) ← receive sock
  let (line, sock) ← receive sock
  match tonumber (line.drop 1) with
  | none => .error .raise
  | some size =>
    if size < 0 then .ok (none, sock)
    else do
      let (ip, sock) ← receiveBytes size.toNat sock
      let (_, sock) ← receiveBytes 2 sock
      let (line, sock) ← receive sock
      -- `table.insert(addrs, nil)` inserts nothing.
      let port := (tonumber (line.drop 1)).map Val.num
      .ok (some { s with addrs := some (s.addrs.getD [] ++ .str ip :: port.toList) }, sock)

def readAddrs : Nat → Slot → Bytes → Except Stop (Option Slot × Bytes)
  | 0, s, sock => .ok (some s, sock)
  | n + 1, s, sock => do
    let (r, sock) ← readAddr s sock
    match r with
    | none => .ok (none, sock)
    | some s => readAddrs n s sock

def buildSlot (sock : Bytes) : Except Stop (Option Slot × Bytes) := do
  let (n, sock) ← header sock
  let (line, sock) ← receive sock
  let min := tonumber (line.drop 1)
  let (line, sock) ← receive sock
  let max := tonumber (line.drop 1)
  readAddrs (n - 2).toNat ⟨min, max, none⟩ sock

/-- `out_data[i] = res`. -/
def assign (cache : Cache) (i : Nat) : Option Slot → Cache
  | none => cache.delete i
  | some s => cache.set i s

/-- `for i = 1, n`, from `i` on. -/
def fill : Nat → Nat → Bytes → Cache → Cache × Option Stop
  | 0, _, _, cache => (cache, none)
  | n + 1, i, sock, cache =>
    match buildSlot sock with
    | .error e => (cache, some e)
    | .ok (res, sock) => fill n (i + 1) sock (assign cache i res)

def buildSlots (sock : Bytes) (cache : Cache) : Cache × Option Stop :=
  match header sock with
  | .error e => (cache, some e)
  | .ok (n, sock) => fill n.toNat 1 sock cache

/-- What happens with one address of `args`: whether it connects, whether the request is sent,
and the bytes that come. -/
structure Attempt where
  connected : Bool
  sent : Bool
  bytes : Bytes

def syncSlots : List Attempt → Cache → Cache
  | [], cache => cache
  | a :: args, cache =>
    if a.connected && a.sent then
      match buildSlots a.bytes cache with
      | (cache, none) => cache
      | (cache, some .raise) => cache
      | (cache, some (.err _)) => syncSlots args cache
    else syncSlots args cache

/-! ## The router -/

/-- `s.min <= slot and s.max >= slot`; `none` is a comparison with `nil`. -/
def Slot.covers (s : Slot) (slot : Nat) : Option Bool :=
  match s.min with
  | none => none
  | some min =>
    if min ≤ slot then
      match s.max with
      | none => none
      | some max => some (decide (max ≥ slot))
    else some false

def scan (slot : Nat) : List (Nat × Slot) → Option Slot → Option (Option Slot)
  | [], server => some server
  | p :: entries, server =>
    match p.2.covers slot with
    | none => none
    | some true => scan slot entries (some p.2)
    | some false => scan slot entries server

inductive Outcome
  /-- `sock:connect(ip, port)`. -/
  | connects (ip : Val) (port : Option Val)
  /-- `nil` and a message. -/
  | error (message : Option String)
  | raised
deriving DecidableEq

def notFound (slot : Nat) : String := "unknow error: slot " ++ toString slot ++ " no found"

def connectTo (s : Slot) : Outcome :=
  match s.addrs with
  | none => .raised
  | some addrs =>
    match addrs with
    | [] => .error none
    | ip :: rest => .connects ip rest.head?

/-- `entries` is the cache in the order of `pairs`. -/
def connect (entries : List (Nat × Slot)) (key : Bytes) : Outcome :=
  match scan (slotOf key) entries none with
  | none => .raised
  | some none => .error (some (notFound (slotOf key)))
  | some (some server) => connectTo server

/-! ## A well-formed reply -/

structure Addr where
  ip : Bytes
  port : Nat

structure Range where
  min : Nat
  max : Nat
  addrs : List Addr

def digits (n : Nat) : Bytes := (Nat.toDigits 10 n).map fun c => UInt8.ofNat c.toNat

/-- A line of the protocol with a number. -/
def line (c : UInt8) (n : Nat) : Bytes := c :: digits n ++ [13, 10]

def Addr.bytes (a : Addr) : Bytes := line 0x2a 2 ++ (line 0x24 a.ip.length ++ (a.ip ++ ([13, 10] ++ line 0x3a a.port)))

def Range.bytes (r : Range) : Bytes :=
  line 0x2a (r.addrs.length + 2) ++ (line 0x3a r.min ++ (line 0x3a r.max ++ r.addrs.flatMap Addr.bytes))

def replyBytes (ranges : List Range) : Bytes := line 0x2a ranges.length ++ ranges.flatMap Range.bytes

def Addr.vals (a : Addr) : List Val := [.str a.ip, .num a.port]

/-- The entry for a range. -/
def Range.slot (r : Range) : Slot := ⟨some r.min, some r.max, some (r.addrs.flatMap Addr.vals)⟩

def Range.covers (r : Range) (slot : Nat) : Bool := decide (r.min ≤ slot) && decide (slot ≤ r.max)

/-- Disjoint ranges of slots, each with an address. -/
structure WellFormed (ranges : List Range) : Prop where
  slots : ∀ r ∈ ranges, r.min ≤ r.max ∧ r.max < 16384
  addrs : ∀ r ∈ ranges, r.addrs ≠ []
  ports : ∀ r ∈ ranges, ∀ a ∈ r.addrs, a.port < 65536
  disjoint : ranges.Pairwise fun r r' => r.max < r'.min ∨ r'.max < r.min

/-! ## Reading it -/

theorem isDigit_of_mem_digits {n : Nat} {c : UInt8} (h : c ∈ digits n) : isDigit c = true := by
  obtain ⟨ch, hch, rfl⟩ := List.mem_map.1 h
  have hd := Nat.isDigit_of_mem_toDigits (by decide) (by decide) hch
  have h0 : 48 ≤ ch.toNat ∧ ch.toNat ≤ 57 := by
    simp only [Char.isDigit, Bool.and_eq_true, decide_eq_true_eq] at hd
    exact ⟨hd.1, hd.2⟩
  simp only [isDigit, Bool.and_eq_true, decide_eq_true_eq, UInt8.le_iff_toNat_le, UInt8.toNat_ofNat']
  have hmod : ch.toNat % 2 ^ 8 = ch.toNat := Nat.mod_eq_of_lt (by omega)
  rw [hmod]
  exact h0

theorem digits_ne_nil (n : Nat) : digits n ≠ [] := by
  rw [digits, Ne, List.map_eq_nil_iff]
  exact Nat.toDigits_ne_nil

theorem natOf_digits (n : Nat) : natOf (digits n) = some n := by
  have hall : (digits n).all isDigit = true := List.all_eq_true.2 fun c hc => isDigit_of_mem_digits hc
  have hfold : (digits n).foldl (fun n c => 10 * n + (c.toNat - 48)) 0 = n := by
    rw [digits, List.foldl_map]
    conv_rhs => rw [← Nat.ofDigitChars_ten_toDigits (n := n), Nat.ofDigitChars_eq_foldl]
    refine List.foldl_ext _ _ _ fun a c hc => ?_
    have hc' := Nat.isDigit_of_mem_toDigits (by decide) (by decide) hc
    have hlt : c.toNat < 256 := by
      simp only [Char.isDigit, Bool.and_eq_true, decide_eq_true_eq] at hc'
      have : c.toNat ≤ 57 := hc'.2
      omega
    rw [UInt8.toNat_ofNat', Nat.mod_eq_of_lt hlt]
    rfl
  rw [natOf, if_pos ⟨digits_ne_nil n, hall⟩, hfold]

theorem tonumber_digits (n : Nat) : tonumber (digits n) = some (n : Int) := by
  have h := natOf_digits n
  rw [tonumber.eq_def]
  split
  · rename_i b heq
    have : isDigit 0x2d = true := isDigit_of_mem_digits (n := n) (by rw [heq]; exact List.mem_cons_self)
    exact absurd this (by decide)
  · rw [h]
    rfl

/-- A line without line ends in it. -/
theorem receive_append {l : Bytes} (h : ∀ c ∈ l, c ≠ 10 ∧ c ≠ 13) (rest : Bytes) :
    receive (l ++ ([13, 10] ++ rest)) = .ok (l, rest) := by
  have hne : ∀ c ∈ l ++ [13], (c != 10) = true := by
    intro c hc
    rcases List.mem_append.1 hc with hc | hc
    · simpa using (h c hc).1
    · rw [List.mem_singleton.1 hc]
      decide
  have hsplit : l ++ ([13, 10] ++ rest) = (l ++ [13]) ++ (10 :: rest) := by simp
  have hfilter : (l ++ [13]).filter (· != 13) = l := by
    rw [List.filter_append, List.filter_eq_self.2 fun c hc => by simpa using (h c hc).2]
    simp
  rw [hsplit, receive, List.dropWhile_append_of_pos hne, List.takeWhile_append_of_pos hne]
  simp [hfilter]

theorem receive_line {c : UInt8} (hc : c ≠ 10 ∧ c ≠ 13) (n : Nat) (rest : Bytes) :
    receive (line c n ++ rest) = .ok (c :: digits n, rest) := by
  have h : ∀ x ∈ c :: digits n, x ≠ 10 ∧ x ≠ 13 := by
    intro x hx
    rcases List.mem_cons.1 hx with rfl | hx
    · exact hc
    · have hd := isDigit_of_mem_digits hx
      constructor <;> rintro rfl <;> exact absurd hd (by decide)
  rw [line, List.append_assoc]
  exact receive_append h rest

theorem header_line (n : Nat) (rest : Bytes) : header (line 0x2a n ++ rest) = .ok ((n : Int), rest) := by
  have hn : ¬ (n : Int) < 0 := by omega
  rw [header, receive_line (by decide)]
  simp [tonumber_digits, ok_bind, hn]

theorem receiveBytes_append (l rest : Bytes) : receiveBytes l.length (l ++ rest) = .ok (l, rest) := by
  rw [receiveBytes, if_pos (by simp), List.take_left, List.drop_left]

theorem readAddr_bytes (s : Slot) (a : Addr) (rest : Bytes) :
    readAddr s (a.bytes ++ rest) = .ok (some { s with addrs := some (s.addrs.getD [] ++ a.vals) }, rest) := by
  have hn : ¬ (a.ip.length : Int) < 0 := by omega
  have hcrlf (l : Bytes) : receiveBytes 2 ([13, 10] ++ l) = .ok ([13, 10], l) := receiveBytes_append [13, 10] l
  rw [readAddr]
  simp only [Addr.bytes, List.append_assoc, receive_line (show (0x2a : UInt8) ≠ 10 ∧ (0x2a : UInt8) ≠ 13 by decide),
    receive_line (show (0x24 : UInt8) ≠ 10 ∧ (0x24 : UInt8) ≠ 13 by decide), ok_bind, List.drop_succ_cons, List.drop_zero,
    tonumber_digits, if_neg hn, Int.toNat_natCast, receiveBytes_append, hcrlf,
    receive_line (show (0x3a : UInt8) ≠ 10 ∧ (0x3a : UInt8) ≠ 13 by decide)]
  rfl

theorem readAddrs_bytes {addrs : List Addr} (s : Slot) (rest : Bytes) (h : addrs ≠ [] ∨ s.addrs ≠ none) :
    readAddrs addrs.length s (addrs.flatMap Addr.bytes ++ rest) =
      .ok (some { s with addrs := some (s.addrs.getD [] ++ addrs.flatMap Addr.vals) }, rest) := by
  induction addrs generalizing s with
  | nil =>
    obtain ⟨l, hl⟩ := Option.ne_none_iff_exists'.1 (h.resolve_left (fun h => h rfl))
    cases s
    simp_all [readAddrs]
  | cons a addrs ih =>
    rw [List.length_cons, readAddrs, List.flatMap_cons, List.append_assoc, readAddr_bytes]
    simp only [ok_bind]
    rw [ih _ (Or.inr (by simp))]
    simp

theorem buildSlot_bytes {r : Range} (h : r.addrs ≠ []) (rest : Bytes) :
    buildSlot (r.bytes ++ rest) = .ok (some r.slot, rest) := by
  have hn : ((r.addrs.length + 2 : Nat) - 2 : Int).toNat = r.addrs.length := by omega
  rw [buildSlot]
  simp only [Range.bytes, List.append_assoc, header_line, ok_bind, hn, List.drop_succ_cons, List.drop_zero, tonumber_digits,
    receive_line (show (0x3a : UInt8) ≠ 10 ∧ (0x3a : UInt8) ≠ 13 by decide)]
  rw [readAddrs_bytes _ _ (Or.inl h)]
  rfl

/-! ## The cache after a reply -/

/-- The ranges written from position `i` on. -/
def writeAll : Nat → List Range → Cache → Cache
  | _, [], cache => cache
  | i, r :: ranges, cache => writeAll (i + 1) ranges (cache.set i r.slot)

theorem fill_bytes {ranges : List Range} (h : ∀ r ∈ ranges, r.addrs ≠ []) (i : Nat) (rest : Bytes) (cache : Cache) :
    fill ranges.length i (ranges.flatMap Range.bytes ++ rest) cache = (writeAll i ranges cache, none) := by
  induction ranges generalizing i cache with
  | nil => rfl
  | cons r ranges ih =>
    rw [List.length_cons, fill, List.flatMap_cons, List.append_assoc, buildSlot_bytes (h r List.mem_cons_self)]
    exact ih (fun x hx => h x (List.mem_cons_of_mem _ hx)) (i + 1) _

theorem buildSlots_bytes {ranges : List Range} (h : ∀ r ∈ ranges, r.addrs ≠ []) (rest : Bytes) (cache : Cache) :
    buildSlots (replyBytes ranges ++ rest) cache = (writeAll 1 ranges cache, none) := by
  rw [buildSlots, replyBytes, List.append_assoc, header_line]
  simp only [Int.toNat_natCast]
  exact fill_bytes h 1 rest cache

theorem mem_set {cache : Cache} {i : Nat} {s : Slot} {p : Nat × Slot} :
    p ∈ cache.set i s ↔ p = (i, s) ∨ p ∈ cache ∧ p.1 ≠ i := by
  simp [AssocList.set, AssocList.delete]

/-- The entries of the reply, and those of other positions. -/
theorem mem_writeAll {ranges : List Range} {i : Nat} {cache : Cache} {p : Nat × Slot} :
    p ∈ writeAll i ranges cache ↔
      (∃ j r, ranges[j]? = some r ∧ p = (i + j, r.slot)) ∨
        p ∈ cache ∧ (p.1 < i ∨ i + ranges.length ≤ p.1) := by
  induction ranges generalizing i cache with
  | nil => simp [writeAll]; omega
  | cons r ranges ih =>
    rw [writeAll, ih, mem_set]
    constructor
    · rintro (⟨j, x, hx, rfl⟩ | ⟨rfl | ⟨hp, hne⟩, hpos⟩)
      · exact Or.inl ⟨j + 1, x, hx, by rw [Nat.add_assoc, Nat.add_comm 1]⟩
      · exact Or.inl ⟨0, r, rfl, rfl⟩
      · refine Or.inr ⟨hp, ?_⟩
        rw [List.length_cons]
        omega
    · rintro (⟨j, x, hx, rfl⟩ | ⟨hp, hpos⟩)
      · cases j with
        | zero =>
          obtain rfl := Option.some.inj hx
          exact Or.inr ⟨Or.inl rfl, Or.inl (Nat.lt_succ_self i)⟩
        | succ j => exact Or.inl ⟨j, x, hx, by rw [Nat.add_assoc, Nat.add_comm 1]⟩
      · rw [List.length_cons] at hpos
        exact Or.inr ⟨Or.inr ⟨hp, by omega⟩, by omega⟩

/-- An attempt after which the next address is tried. -/
def Attempt.Fails (a : Attempt) : Prop :=
  (a.connected && a.sent) = true → ∀ cache, ∃ e, (buildSlots a.bytes cache).2 = some (.err e)

theorem syncSlots_append {failed : List Attempt} (h : ∀ a ∈ failed, a.Fails) (args : List Attempt) (cache : Cache) :
    syncSlots (failed ++ args) cache = syncSlots args (syncSlots failed cache) := by
  induction failed generalizing cache with
  | nil => rfl
  | cons a failed ih =>
    have ih := ih fun x hx => h x (List.mem_cons_of_mem _ hx)
    rw [List.cons_append, syncSlots, syncSlots]
    split
    · rename_i hsent
      obtain ⟨e, he⟩ := h a List.mem_cons_self hsent cache
      generalize buildSlots a.bytes cache = r at he
      obtain ⟨c, stop⟩ := r
      subst he
      exact ih c
    · exact ih cache

/-- The call in which a complete reply arrives. -/
theorem syncSlots_reply {failed : List Attempt} (h : ∀ a ∈ failed, a.Fails) {ranges : List Range}
    (hr : ∀ r ∈ ranges, r.addrs ≠ []) (rest : Bytes) (later : List Attempt) (cache : Cache) :
    syncSlots (failed ++ ⟨true, true, replyBytes ranges ++ rest⟩ :: later) cache =
      writeAll 1 ranges (syncSlots failed cache) := by
  rw [syncSlots_append h, syncSlots]
  simp only [Bool.and_self, if_true, buildSlots_bytes hr]

/-! ## Which entry is taken -/

theorem scan_concat (slot : Nat) (l : List (Nat × Slot)) (p : Nat × Slot) (server : Option Slot) :
    scan slot (l ++ [p]) server =
      match scan slot l server, p.2.covers slot with
      | none, _ => none
      | some _, none => none
      | some _, some true => some (some p.2)
      | some server, some false => some server := by
  induction l generalizing server with
  | nil =>
    rw [List.nil_append, scan, scan]
    cases p.2.covers slot with
    | none => rfl
    | some b => cases b <;> rfl
  | cons q l ih =>
    rw [List.cons_append, scan, scan]
    cases q.2.covers slot with
    | none => rfl
    | some b => cases b <;> exact ih _

/-- Where no comparison raises, the scan ends with a match, or there is none. -/
theorem scan_spec {slot : Nat} {l : List (Nat × Slot)} (h : ∀ p ∈ l, p.2.covers slot ≠ none) (server : Option Slot) :
    (∃ p ∈ l, p.2.covers slot = some true ∧ scan slot l server = some (some p.2)) ∨
      (∀ p ∈ l, p.2.covers slot = some false) ∧ scan slot l server = some server := by
  induction l using List.reverseRecOn with
  | nil => exact Or.inr ⟨fun p hp => absurd hp List.not_mem_nil, rfl⟩
  | append_singleton l p ih =>
    have hl := ih fun q hq => h q (List.mem_append_left _ hq)
    rw [scan_concat]
    cases hp : p.2.covers slot with
    | none => exact absurd hp (h p (by simp))
    | some b =>
      cases b with
      | true =>
        refine Or.inl ⟨p, by simp, hp, ?_⟩
        rcases hl with ⟨q, -, -, hq⟩ | ⟨-, hq⟩ <;> rw [hq]
      | false =>
        rcases hl with ⟨q, hqm, hqc, hq⟩ | ⟨hall, hq⟩
        · exact Or.inl ⟨q, List.mem_append_left _ hqm, hqc, by rw [hq]⟩
        · refine Or.inr ⟨fun q hqm => ?_, by rw [hq]⟩
          rcases List.mem_append.1 hqm with hqm | hqm
          · exact hall q hqm
          · rw [List.mem_singleton.1 hqm]
            exact hp

/-! ## The owner of a slot -/

/-- Where a key of the slot belongs: the first address of the range that has it. -/
def owner (ranges : List Range) (slot : Nat) : Outcome :=
  match ranges.find? fun r => r.covers slot with
  | none => .error (some (notFound slot))
  | some r =>
    match r.addrs with
    | [] => .raised
    | a :: _ => .connects (.str a.ip) (some (.num a.port))

/-- The entry's first address is `a`. -/
def Slot.StartsWith (s : Slot) (a : Addr) : Prop := ∃ l, s.addrs = some (.str a.ip :: .num a.port :: l)

/-- The entry does not have the slot, or it leads where the reply leads. -/
def Harmless (ranges : List Range) (slot : Nat) (s : Slot) : Prop :=
  s.covers slot = some false ∨
    s.covers slot = some true ∧ ∃ r ∈ ranges, r.covers slot = true ∧ ∃ a l, r.addrs = a :: l ∧ s.StartsWith a

theorem connectTo_eq_iff {s : Slot} {a : Addr} :
    connectTo s = .connects (.str a.ip) (some (.num a.port)) ↔ s.StartsWith a := by
  rw [connectTo, Slot.StartsWith]
  rcases s.addrs with _ | _ | ⟨v, _ | ⟨w, l⟩⟩ <;> simp

theorem connectTo_ne_error (s : Slot) (m : String) : connectTo s ≠ .error (some m) := by
  rw [connectTo]
  rcases s.addrs with _ | _ | ⟨v, l⟩ <;> simp

theorem covers_slot (r : Range) (slot : Nat) : r.slot.covers slot = some (r.covers slot) := by
  by_cases h : r.min ≤ slot <;> simp [Slot.covers, Range.slot, Range.covers, h]

section WellFormed

variable {ranges : List Range} (hwf : WellFormed ranges) {slot : Nat}
include hwf

/-- No two ranges have a slot. -/
theorem find_covers {r : Range} (hr : r ∈ ranges) (hc : r.covers slot = true) :
    ranges.find? (fun r => r.covers slot) = some r := by
  have hpair : ranges.Pairwise fun r r' => r.covers slot = true → r'.covers slot = true → r = r' := by
    refine hwf.disjoint.imp fun {r r'} hd h h' => ?_
    simp only [Range.covers, Bool.and_eq_true, decide_eq_true_eq] at h h'
    omega
  cases hf : ranges.find? fun r => r.covers slot with
  | none => exact absurd hc (List.find?_eq_none.1 hf r hr)
  | some r' =>
    have hc' : r'.covers slot = true := by simpa using List.find?_some hf
    have : Std.Symm fun r r' : Range => r.covers slot = true → r'.covers slot = true → r = r' :=
      ⟨fun _ _ hab h h' => (hab h' h).symm⟩
    have hall := List.Pairwise.forall_of_forall (fun _ _ _ _ => rfl) hpair
    exact congrArg some (hall (List.mem_of_find?_eq_some hf) hr hc' hc)

theorem owner_of_covers {r : Range} (hr : r ∈ ranges) (hc : r.covers slot = true) {a : Addr} {l : List Addr}
    (ha : r.addrs = a :: l) : owner ranges slot = .connects (.str a.ip) (some (.num a.port)) := by
  rw [owner, find_covers hwf hr hc]
  simp only [ha]

/-- The owner is an address of the range with the slot, or there is no such range. -/
theorem owner_cases (slot : Nat) :
    (∃ r ∈ ranges, r.covers slot = true ∧ ∃ a l, r.addrs = a :: l ∧
        owner ranges slot = .connects (.str a.ip) (some (.num a.port))) ∨
      (∀ r ∈ ranges, r.covers slot = false) ∧ owner ranges slot = .error (some (notFound slot)) := by
  cases hf : ranges.find? fun r => r.covers slot with
  | some r =>
    have hr := List.mem_of_find?_eq_some hf
    have hc : r.covers slot = true := by simpa using List.find?_some hf
    obtain ⟨a, l, ha⟩ := List.exists_cons_of_ne_nil (hwf.addrs r hr)
    exact Or.inl ⟨r, hr, hc, a, l, ha, owner_of_covers hwf hr hc ha⟩
  | none =>
    refine Or.inr ⟨fun r hr => ?_, by rw [owner, hf]⟩
    simpa using List.find?_eq_none.1 hf r hr

theorem connect_of_harmless {key : Bytes} {entries : List (Nat × Slot)}
    (hreply : ∀ r ∈ ranges, ∃ i, (i, r.slot) ∈ entries)
    (h : ∀ p ∈ entries, (∃ r ∈ ranges, p.2 = r.slot) ∨ Harmless ranges (slotOf key) p.2) :
    connect entries key = owner ranges (slotOf key) := by
  have hdef : ∀ p ∈ entries, p.2.covers (slotOf key) ≠ none := by
    intro p hp
    rcases h p hp with ⟨r, -, hr⟩ | hh | ⟨hh, -⟩
    · rw [hr, covers_slot]
      exact Option.some_ne_none _
    · rw [hh]
      exact Option.some_ne_none _
    · rw [hh]
      exact Option.some_ne_none _
  rw [connect]
  rcases scan_spec hdef none with ⟨p, hp, hc, hs⟩ | ⟨hall, hs⟩
  · rw [hs]
    rcases h p hp with ⟨r, hr, he⟩ | hh | ⟨-, r, hr, hrc, a, l, ha, hst⟩
    · obtain ⟨a, l, ha⟩ := List.exists_cons_of_ne_nil (hwf.addrs r hr)
      rw [he, covers_slot] at hc
      rw [owner_of_covers hwf hr (Option.some.inj hc) ha, he]
      exact connectTo_eq_iff.2 ⟨l.flatMap Addr.vals, by rw [Range.slot, ha]; rfl⟩
    · rw [hc] at hh
      cases hh
    · rw [owner_of_covers hwf hr hrc ha]
      exact connectTo_eq_iff.2 hst
  · rw [hs]
    rcases owner_cases hwf (slotOf key) with ⟨r, hr, hrc, -⟩ | ⟨-, ho⟩
    · obtain ⟨i, hi⟩ := hreply r hr
      have := hall _ hi
      rw [covers_slot, hrc] at this
      cases this
    · exact ho.symm

/-- An entry that comes last decides, if it has the slot. -/
theorem harmless_of_connect {key : Bytes} {entries : List (Nat × Slot)} {p : Nat × Slot}
    (h : connect (entries ++ [p]) key = owner ranges (slotOf key)) : Harmless ranges (slotOf key) p.2 := by
  have hne : owner ranges (slotOf key) ≠ .raised := by
    rcases owner_cases hwf (slotOf key) with ⟨r, -, -, a, l, -, ho⟩ | ⟨-, ho⟩ <;> rw [ho] <;> simp
  rw [connect, scan_concat] at h
  cases hs : scan (slotOf key) entries none with
  | none =>
    rw [hs] at h
    exact absurd h.symm hne
  | some server =>
    rw [hs] at h
    cases hc : p.2.covers (slotOf key) with
    | none =>
      rw [hc] at h
      exact absurd h.symm hne
    | some b =>
      rw [hc] at h
      cases b with
      | false => exact Or.inl hc
      | true =>
        rcases owner_cases hwf (slotOf key) with ⟨r, hr, hrc, a, l, ha, ho⟩ | ⟨-, ho⟩
        · exact Or.inr ⟨hc, r, hr, hrc, a, l, ha, connectTo_eq_iff.1 (h.trans ho)⟩
        · exact absurd (h.trans ho) (connectTo_ne_error _ _)

end WellFormed

/-- Requests go to the owner of their slot exactly when what earlier replies left at positions
behind the new one is harmless; `syncSlots failed prior` is the cache when the reply arrives. -/
theorem slot_owner_iff {failed : List Attempt} (hfailed : ∀ a ∈ failed, a.Fails) {ranges : List Range}
    (hwf : WellFormed ranges) (rest : Bytes) (later : List Attempt) (prior : Cache) (key : Bytes) :
    (∀ entries, entries.Perm (syncSlots (failed ++ ⟨true, true, replyBytes ranges ++ rest⟩ :: later) prior) →
        connect entries key = owner ranges (slotOf key)) ↔
      ∀ p ∈ syncSlots failed prior, p.1 = 0 ∨ ranges.length < p.1 → Harmless ranges (slotOf key) p.2 := by
  rw [syncSlots_reply hfailed hwf.addrs]
  constructor
  · intro h p hp hpos
    have hmem : p ∈ writeAll 1 ranges (syncSlots failed prior) := mem_writeAll.2 (Or.inr ⟨hp, by omega⟩)
    obtain ⟨l₁, l₂, hl⟩ := List.append_of_mem hmem
    have hperm : (l₁ ++ l₂ ++ [p]).Perm (writeAll 1 ranges (syncSlots failed prior)) := by
      rw [hl, List.append_assoc]
      exact (List.perm_append_singleton p l₂).append_left l₁
    exact harmless_of_connect hwf (h _ hperm)
  · intro h entries hperm
    refine connect_of_harmless hwf (fun r hr => ?_) (fun p hp => ?_)
    · obtain ⟨j, hj⟩ := List.mem_iff_getElem?.1 hr
      exact ⟨1 + j, hperm.mem_iff.2 (mem_writeAll.2 (Or.inl ⟨j, r, hj, rfl⟩))⟩
    · rcases mem_writeAll.1 (hperm.mem_iff.1 hp) with ⟨j, r, hj, rfl⟩ | ⟨hp, hpos⟩
      · exact Or.inl ⟨r, List.mem_of_getElem? hj, rfl⟩
      · exact Or.inr (h p hp (by omega))

/-- Two nodes share the slots. -/
def twoRanges : List Range := [⟨0, 8191, [⟨[0x61], 7000⟩]⟩, ⟨8192, 16383, [⟨[0x62], 7001⟩]⟩]

/-- One node has them all. -/
def oneRange : List Range := [⟨0, 16383, [⟨[0x61], 7000⟩]⟩]

theorem wellFormed_twoRanges : WellFormed twoRanges where
  slots := by decide
  addrs r hr := by
    simp only [twoRanges, List.mem_cons, List.not_mem_nil, or_false] at hr
    rcases hr with rfl | rfl <;> simp
  ports := by decide
  disjoint := by decide

theorem wellFormed_oneRange : WellFormed oneRange where
  slots := by decide
  addrs r hr := by
    simp only [oneRange, List.mem_cons, List.not_mem_nil, or_false] at hr
    rw [hr]
    simp
  ports := by decide
  disjoint := by decide

/-- The key `foo` after the cluster grew to two nodes: slot 12182 is the second one's. -/
theorem slot_owner_grown :
    slotOf [0x66, 0x6f, 0x6f] = 12182 ∧
      ∀ entries, entries.Perm (syncSlots [⟨true, true, replyBytes twoRanges⟩] (writeAll 1 oneRange [])) →
        connect entries [0x66, 0x6f, 0x6f] = .connects (.str [0x62]) (some (.num 7001)) := by
  have hnone : ∀ a ∈ ([] : List Attempt), a.Fails := fun a ha => absurd ha List.not_mem_nil
  have h := (slot_owner_iff hnone wellFormed_twoRanges [] [] (writeAll 1 oneRange []) [0x66, 0x6f, 0x6f]).2
  rw [List.append_nil] at h
  refine ⟨by decide +kernel, fun entries hperm => ?_⟩
  rw [h ?_ entries hperm]
  · decide +kernel
  · intro p hp hpos
    simp only [syncSlots, oneRange, writeAll, AssocList.set, AssocList.delete, List.filter_nil, List.mem_singleton] at hp
    rw [hp] at hpos
    simp [twoRanges] at hpos

/-- The same key after it shrank to one: the second entry is still there, and comes last. -/
theorem slot_owner_shrunk :
    ¬ ∀ entries, entries.Perm (syncSlots [⟨true, true, replyBytes oneRange⟩] (writeAll 1 twoRanges [])) →
      connect entries [0x66, 0x6f, 0x6f] = owner oneRange (slotOf [0x66, 0x6f, 0x6f]) := by
  intro h
  have hsync : syncSlots [⟨true, true, replyBytes oneRange⟩] (writeAll 1 twoRanges []) =
      writeAll 1 oneRange (writeAll 1 twoRanges []) := by
    have hnone : ∀ a ∈ ([] : List Attempt), a.Fails := fun a ha => absurd ha List.not_mem_nil
    have := syncSlots_reply hnone wellFormed_oneRange.addrs [] [] (writeAll 1 twoRanges [])
    rwa [List.append_nil] at this
  rw [hsync] at h
  exact absurd (h _ (List.Perm.refl _)) (by decide +kernel)

end NgxPlus.Redis3
