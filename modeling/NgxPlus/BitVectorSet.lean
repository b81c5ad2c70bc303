import Mathlib.Data.Nat.Count
import NgxPlus.MqttProtocol

/-!
# The bit vector as a set (`mqtt_protocol.c:294-377`)

| here | there |
| --- | --- |
| `byteCounts`               | `BYTE_COUNTS` (`:294-311`) |
| `utilityBitVectorInit`, `…Set`, `…Get`, `…Clear` | `MqttProtocol.lean` |
| `utilityBitVectorDel`      | `:351-359` |
| `utilityBitVectorCount`    | `:366-377`: the number returned, and the vector with the number kept in `count` |
| `accessed`                 | the index of `bits` that `set`, `get` and `del` touch |

`count` is an `int64_t` that every change sets to -1; the sum of a count is an `uint64_t`. All bit
patterns of the two are in one-to-one correspondence, so a count of `2^64 - 1` is only counted
anew each time. `Holds` is the invariant: the bits of the vector are those of a set, and a count
that was kept is the set's (`bit_vector_set`).

The guard of `set`, `get` and `del` lets the index `size` pass, one behind the last byte:
`bit_bounds_iff`.
-/

namespace NgxPlus.BitVectorSet

def byteCounts : List Nat :=
  [0, 1, 1, 2, 1, 2, 2, 3, 1, 2, 2, 3, 2, 3, 3, 4,
    1, 2, 2, 3, 2, 3, 3, 4, 2, 3, 3, 4, 3, 4, 4, 5,
    1, 2, 2, 3, 2, 3, 3, 4, 2, 3, 3, 4, 3, 4, 4, 5,
    2, 3, 3, 4, 3, 4, 4, 5, 3, 4, 4, 5, 4, 5, 5, 6,
    1, 2, 2, 3, 2, 3, 3, 4, 2, 3, 3, 4, 3, 4, 4, 5,
    2, 3, 3, 4, 3, 4, 4, 5, 3, 4, 4, 5, 4, 5, 5, 6,
    2, 3, 3, 4, 3, 4, 4, 5, 3, 4, 4, 5, 4, 5, 5, 6,
    3, 4, 4, 5, 4, 5, 5, 6, 4, 5, 5, 6, 5, 6, 6, 7,
    1, 2, 2, 3, 2, 3, 3, 4, 2, 3, 3, 4, 3, 4, 4, 5,
    2, 3, 3, 4, 3, 4, 4, 5, 3, 4, 4, 5, 4, 5, 5, 6,
    2, 3, 3, 4, 3, 4, 4, 5, 3, 4, 4, 5, 4, 5, 5, 6,
    3, 4, 4, 5, 4, 5, 5, 6, 4, 5, 5, 6, 5, 6, 6, 7,
    2, 3, 3, 4, 3, 4, 4, 5, 3, 4, 4, 5, 4, 5, 5, 6,
    3, 4, 4, 5, 4, 5, 5, 6, 4, 5, 5, 6, 5, 6, 6, 7,
    3, 4, 4, 5, 4, 5, 5, 6, 4, 5, 5, 6, 5, 6, 6, 7,
    4, 5, 5, 6, 5, 6, 6, 7, 5, 6, 6, 7, 6, 7, 7, 8]

def utilityBitVectorDel (bv : BitVector) (bit : Nat) : BitVector :=
  let pos := bit >>> 3
  if pos > bv.size then bv
  else { bv with bits := Function.update bv.bits pos (bv.bits pos &&& ~~~bitMask bit), count := -1 }

/-- The sum over the first `end_` bytes. -/
def sumCounts (bits : Nat → UInt8) (end_ : Nat) : Nat :=
  (List.range end_).foldl (fun c i => (c + byteCounts.getD (bits i &&& 0xFF).toNat 0) % 2 ^ 64) 0

def utilityBitVectorCount (bv : BitVector) : Nat × BitVector :=
  let bv := if bv.count = -1 then { bv with count := (sumCounts bv.bits bv.size : Int).bmod (2 ^ 64) } else bv
  ((bv.count % 2 ^ 64).toNat, bv)

/-- `ngx_slab_alloc` or `calloc`: the memory behind the pointer, or NULL. -/
abbrev Alloc := Nat → Option (Nat → UInt8)

/-- What can be allocated is smaller than the address space; that of a process on x86-64 has at
most `2 ^ 56` bytes. -/
def AddressSpace (alloc : Alloc) : Prop := ∀ size mem, alloc size = some mem → size < 2 ^ 61

/-- `utility_bit_vector_init`; `none` is -1. -/
def bitVectorOf (alloc : Alloc) (n : Nat) : Option BitVector :=
  (alloc (if n = 0 then (uintMax >>> 3) + 1 else (n >>> 3) + 1)).map fun mem => utilityBitVectorInit mem n

/-! ## Runs -/

inductive BitOp
  | set (bit : Nat)
  | del (bit : Nat)
  | clear
  | get (bit : Nat)
  | count
deriving DecidableEq

def execOp (bv : BitVector) : BitOp → BitVector
  | .set bit => utilityBitVectorSet bv bit
  | .del bit => utilityBitVectorDel bv bit
  | .clear => utilityBitVectorClear bv
  | .get _ => bv
  | .count => (utilityBitVectorCount bv).2

def execOps (bv : BitVector) (ops : List BitOp) : BitVector := ops.foldl execOp bv

/-- The set that the operations describe, from `s` on. -/
def setOp (s : Finset Nat) : BitOp → Finset Nat
  | .set bit => insert bit s
  | .del bit => s.erase bit
  | .clear => ∅
  | .get _ => s
  | .count => s

def setOps (ops : List BitOp) : Finset Nat := ops.foldl setOp ∅

/-- The operation names another bit than `b`, or none. -/
def BitOp.Spares (b : Nat) : BitOp → Prop
  | .set bit => bit ≠ b
  | .del bit => bit ≠ b
  | .get bit => bit ≠ b
  | .clear => False
  | .count => True

/-- The bit of an operation is below `n`. -/
def BitOp.Below (n : Nat) : BitOp → Prop
  | .set bit => bit < n
  | .del bit => bit < n
  | .get bit => bit < n
  | .clear => True
  | .count => True

instance BitOp.decidableBelow (n : Nat) : (op : BitOp) → Decidable (op.Below n)
  | .set bit => inferInstanceAs (Decidable (bit < n))
  | .del bit => inferInstanceAs (Decidable (bit < n))
  | .get bit => inferInstanceAs (Decidable (bit < n))
  | .clear => inferInstanceAs (Decidable True)
  | .count => inferInstanceAs (Decidable True)

/-! ## One operation -/

@[simp] theorem size_bitVectorDel (bv : BitVector) (bit : Nat) : (utilityBitVectorDel bv bit).size = bv.size := by
  simp only [utilityBitVectorDel]; split <;> rfl

@[simp] theorem size_bitVectorCount (bv : BitVector) : (utilityBitVectorCount bv).2.size = bv.size := by
  simp only [utilityBitVectorCount]; split <;> rfl

@[simp] theorem size_execOp (bv : BitVector) (op : BitOp) : (execOp bv op).size = bv.size := by
  cases op <;> simp [execOp]

@[simp] theorem size_execOps (bv : BitVector) (ops : List BitOp) : (execOps bv ops).size = bv.size := by
  induction ops generalizing bv with
  | nil => rfl
  | cons op ops ih => rw [execOps, List.foldl_cons]; exact (ih _).trans (size_execOp bv op)

@[simp] theorem bits_bitVectorCount (bv : BitVector) : (utilityBitVectorCount bv).2.bits = bv.bits := by
  simp only [utilityBitVectorCount]; split <;> rfl

theorem bitVectorGet_count (bv : BitVector) (b : Nat) :
    utilityBitVectorGet (utilityBitVectorCount bv).2 b = utilityBitVectorGet bv b := by
  simp only [utilityBitVectorGet, size_bitVectorCount, bits_bitVectorCount]

theorem testBit_not_mask (bit : Nat) {k : Nat} (hk : k < 8) :
    (~~~bitMask bit).toNat.testBit k = decide (k ≠ bit % 8) := by
  have h7 : bit &&& 7 = bit % 8 := Nat.and_two_pow_sub_one_eq_mod bit 3
  have hall : ∀ m < 8, ∀ k < 8, (~~~((1 : UInt8) <<< UInt8.ofNat m)).toNat.testBit k = decide (k ≠ m) := by decide
  rw [bitMask, h7]
  exact hall _ (Nat.mod_lt _ (by decide)) k hk

/-- `del` takes one bit out of the set that `get` answers for. -/
theorem bitVectorGet_del {bv : BitVector} {a b : Nat} (ha : a / 8 ≤ bv.size) (hb : b / 8 ≤ bv.size) :
    utilityBitVectorGet (utilityBitVectorDel bv a) b = true ↔ b ≠ a ∧ utilityBitVectorGet bv b = true := by
  have hpos : a >>> 3 = a / 8 := Nat.shiftRight_eq_div_pow a 3
  have hdel : (utilityBitVectorDel bv a).bits =
      Function.update bv.bits (a / 8) (bv.bits (a / 8) &&& ~~~bitMask a) := by
    simp only [utilityBitVectorDel, hpos]; rw [if_neg (by omega)]
  rw [bitVectorGet_eq (by rw [size_bitVectorDel]; exact hb), bitVectorGet_eq hb, hdel]
  by_cases hp : b / 8 = a / 8
  · have hab : b % 8 ≠ a % 8 ↔ b ≠ a := by omega
    rw [hp, Function.update_self, UInt8.toNat_and, Nat.testBit_and, testBit_not_mask _ (Nat.mod_lt _ (by decide)),
      Bool.and_eq_true, decide_eq_true_iff, hab, and_comm]
  · rw [Function.update_of_ne hp]
    have hab : b ≠ a := fun h => hp (by rw [h])
    simp [hab]

/-! ## Counting -/

theorem byteCounts_eq (x : UInt8) :
    byteCounts.getD (x &&& 0xFF).toNat 0 = Nat.count (fun k => x.toNat.testBit k) 8 := by
  have hall : ∀ n < 256, byteCounts.getD (n &&& 0xFF) 0 = Nat.count (fun k => n.testBit k) 8 := by decide +kernel
  rw [UInt8.toNat_and]
  exact hall x.toNat x.toNat_lt

theorem count_congr {p q : Nat → Prop} [DecidablePred p] [DecidablePred q] {n : Nat} (h : ∀ k < n, (p k ↔ q k)) :
    Nat.count p n = Nat.count q n :=
  Nat.le_antisymm (Nat.count_mono_left fun k hk => (h k hk).1) (Nat.count_mono_left fun k hk => (h k hk).2)

/-- The sum over the first bytes counts their bits. -/
theorem sumCounts_eq {bv : BitVector} {k : Nat} (hk : k ≤ bv.size) :
    sumCounts bv.bits k = Nat.count (fun b => utilityBitVectorGet bv b = true) (8 * k) % 2 ^ 64 := by
  induction k with
  | zero => rfl
  | succ k ih =>
    have hbyte : Nat.count (fun j => utilityBitVectorGet bv (8 * k + j) = true) 8 =
        Nat.count (fun j => (bv.bits k).toNat.testBit j) 8 := by
      refine count_congr fun j hj => ?_
      have hdiv : (8 * k + j) / 8 = k := by omega
      have hmod : (8 * k + j) % 8 = j := by omega
      rw [bitVectorGet_eq (by omega), hdiv, hmod]
    have hsum : sumCounts bv.bits (k + 1) =
        (sumCounts bv.bits k + byteCounts.getD (bv.bits k &&& 0xFF).toNat 0) % 2 ^ 64 := by
      simp only [sumCounts, List.range_succ, List.foldl_append, List.foldl_cons, List.foldl_nil]
    rw [hsum, ih (by omega), byteCounts_eq, ← hbyte, Nat.mul_succ, Nat.count_add, Nat.mod_add_mod]

/-! ## The invariant -/

/-- The bits are those of the set, and so is a count that was kept. -/
structure Holds (bv : BitVector) (s : Finset Nat) : Prop where
  mem : ∀ b, b ∈ s ↔ b < 8 * bv.size ∧ utilityBitVectorGet bv b = true
  count : bv.count = -1 ∨ bv.count = (s.card : Int).bmod (2 ^ 64)

theorem Holds.card {bv : BitVector} {s : Finset Nat} (h : Holds bv s) :
    s.card = Nat.count (fun b => utilityBitVectorGet bv b = true) (8 * bv.size) := by
  rw [Nat.count_eq_card_filter_range]
  congr 1
  ext b
  rw [h.mem, Finset.mem_filter, Finset.mem_range]

theorem Holds.card_le {bv : BitVector} {s : Finset Nat} (h : Holds bv s) : s.card ≤ 8 * bv.size := by
  rw [h.card]
  exact Nat.count_le _

/-- What is counted, anew or not. -/
theorem Holds.count_eq {bv : BitVector} {s : Finset Nat} (h : Holds bv s) :
    (utilityBitVectorCount bv).1 = s.card % 2 ^ 64 ∧
      (utilityBitVectorCount bv).2.count = (s.card : Int).bmod (2 ^ 64) := by
  have hsum : (sumCounts bv.bits bv.size : Int).bmod (2 ^ 64) = (s.card : Int).bmod (2 ^ 64) := by
    rw [sumCounts_eq le_rfl, ← h.card, Int.natCast_emod, Int.emod_bmod]
  have hcount : (utilityBitVectorCount bv).2.count = (s.card : Int).bmod (2 ^ 64) := by
    by_cases hc : bv.count = -1
    · simp only [utilityBitVectorCount, if_pos hc]
      exact hsum
    · simp only [utilityBitVectorCount, if_neg hc]
      exact h.count.resolve_left hc
  have hfst : (utilityBitVectorCount bv).1 = ((utilityBitVectorCount bv).2.count % (2 ^ 64 : Nat)).toNat := rfl
  refine ⟨?_, hcount⟩
  rw [hfst, hcount, Int.bmod_emod, ← Int.natCast_emod, Int.toNat_natCast]

/-- After a change nothing is kept. -/
theorem Holds.of_get {bv : BitVector} {s : Finset Nat} (hcount : bv.count = -1)
    (hin : ∀ b ∈ s, b < 8 * bv.size) (hget : ∀ b < 8 * bv.size, (utilityBitVectorGet bv b = true ↔ b ∈ s)) :
    Holds bv s where
  mem b := by
    constructor
    · intro hb
      exact ⟨hin b hb, (hget b (hin b hb)).2 hb⟩
    · rintro ⟨hlt, hb⟩
      exact (hget b hlt).1 hb
  count := Or.inl hcount

theorem Holds.get_iff {bv : BitVector} {s : Finset Nat} (h : Holds bv s) {b : Nat} (hb : b < 8 * bv.size) :
    utilityBitVectorGet bv b = true ↔ b ∈ s := by
  rw [h.mem]
  exact ⟨fun hg => ⟨hb, hg⟩, And.right⟩

theorem count_set {bv : BitVector} {bit : Nat} (h : bit < 8 * bv.size) : (utilityBitVectorSet bv bit).count = -1 := by
  have hpos : bit >>> 3 = bit / 8 := Nat.shiftRight_eq_div_pow bit 3
  simp only [utilityBitVectorSet, hpos]
  rw [if_neg (by omega)]

theorem count_del {bv : BitVector} {bit : Nat} (h : bit < 8 * bv.size) : (utilityBitVectorDel bv bit).count = -1 := by
  have hpos : bit >>> 3 = bit / 8 := Nat.shiftRight_eq_div_pow bit 3
  simp only [utilityBitVectorDel, hpos]
  rw [if_neg (by omega)]

/-- Whatever was there before. -/
theorem Holds.clear (bv : BitVector) : Holds (utilityBitVectorClear bv) ∅ := by
  refine Holds.of_get rfl (by simp) fun b hb => ?_
  rw [size_bitVectorClear] at hb
  rw [bitVectorGet_clear (by omega)]
  simp

/-- **One operation** does to the vector what it does to the set. -/
theorem Holds.step {bv : BitVector} {s : Finset Nat} (h : Holds bv s) {op : BitOp} (hop : op.Below (8 * bv.size)) :
    Holds (execOp bv op) (setOp s op) := by
  cases op with
  | set bit =>
    have hbit : bit < 8 * bv.size := hop
    refine Holds.of_get (count_set hbit) ?_ fun b hb => ?_
    · rw [execOp, size_bitVectorSet]
      intro b hb
      rcases Finset.mem_insert.1 hb with rfl | hb
      · exact hbit
      · exact ((h.mem b).1 hb).1
    · rw [execOp, size_bitVectorSet] at hb
      rw [execOp, bitVectorGet_set (by omega) (by omega), h.get_iff hb]
      exact Finset.mem_insert.symm
  | del bit =>
    have hbit : bit < 8 * bv.size := hop
    refine Holds.of_get (count_del hbit) ?_ fun b hb => ?_
    · rw [execOp, size_bitVectorDel]
      intro b hb
      exact ((h.mem b).1 (Finset.mem_of_mem_erase hb)).1
    · rw [execOp, size_bitVectorDel] at hb
      rw [execOp, bitVectorGet_del (by omega) (by omega), h.get_iff hb]
      exact Finset.mem_erase.symm
  | clear => exact Holds.clear bv
  | get bit => exact h
  | count =>
    refine ⟨fun b => ?_, Or.inr h.count_eq.2⟩
    rw [execOp, bitVectorGet_count, size_bitVectorCount]
    exact h.mem b

theorem Holds.run {bv : BitVector} {s : Finset Nat} (h : Holds bv s) {ops : List BitOp}
    (hops : ∀ op ∈ ops, op.Below (8 * bv.size)) : Holds (execOps bv ops) (ops.foldl setOp s) := by
  induction ops generalizing bv s with
  | nil => exact h
  | cons op ops ih =>
    refine ih (h.step (hops op List.mem_cons_self)) fun o ho => ?_
    rw [size_execOp]
    exact hops o (List.mem_cons_of_mem _ ho)

/-- Where the allocation is no larger than memory, the count is the number of bits. -/
theorem Holds.count_card {bv : BitVector} {s : Finset Nat} (h : Holds bv s) (hsize : bv.size < 2 ^ 61) :
    (utilityBitVectorCount bv).1 = s.card := by
  have hcard := h.card_le
  rw [h.count_eq.1, Nat.mod_eq_of_lt (by omega)]

theorem get_spared {bv : BitVector} {op : BitOp} {b : Nat} (hop : op.Below (8 * bv.size)) (hb : b < 8 * bv.size)
    (hs : op.Spares b) : utilityBitVectorGet (execOp bv op) b = utilityBitVectorGet bv b := by
  cases op with
  | set bit =>
    have hbit : bit < 8 * bv.size := hop
    have hne : b ≠ bit := Ne.symm hs
    rw [execOp, Bool.eq_iff_iff, bitVectorGet_set (by omega) (by omega)]
    exact ⟨fun h => h.resolve_left hne, Or.inr⟩
  | del bit =>
    have hbit : bit < 8 * bv.size := hop
    have hne : b ≠ bit := Ne.symm hs
    rw [execOp, Bool.eq_iff_iff, bitVectorGet_del (by omega) (by omega)]
    exact ⟨And.right, fun h => ⟨hne, h⟩⟩
  | clear => exact hs.elim
  | get bit => rfl
  | count => exact bitVectorGet_count bv b

/-- **The vector is a set.** After every run, `get` answers for it, `count` is its size, and one
more operation on a bit leaves the answers for the others. -/
theorem bit_vector_set {alloc : Alloc} (halloc : AddressSpace alloc) {n : Nat} {bv₀ : BitVector}
    (hinit : bitVectorOf alloc n = some bv₀) {ops : List BitOp} (hops : ∀ op ∈ ops, op.Below (8 * bv₀.size)) :
    let bv := execOps (utilityBitVectorClear bv₀) ops
    (∀ b < 8 * bv₀.size, (utilityBitVectorGet bv b = true ↔ b ∈ setOps ops)) ∧
      (utilityBitVectorCount bv).1 = (setOps ops).card ∧
        ∀ op : BitOp, op.Below (8 * bv₀.size) → ∀ b < 8 * bv₀.size, op.Spares b →
          utilityBitVectorGet (execOp bv op) b = utilityBitVectorGet bv b := by
  intro bv
  obtain ⟨mem, hmem, rfl⟩ := Option.map_eq_some_iff.1 hinit
  have hsize : bv.size = (utilityBitVectorInit mem n).size := by
    rw [size_execOps, size_bitVectorClear]
  have hlt : (utilityBitVectorInit mem n).size < 2 ^ 61 := halloc _ mem hmem
  have hrun : Holds bv (setOps ops) := (Holds.clear _).run hops
  refine ⟨fun b hb => ?_, ?_, fun op hop b hb hs => ?_⟩
  · exact hrun.get_iff (by rwa [hsize])
  · exact hrun.count_card (by rwa [hsize])
  · exact get_spared (by rwa [hsize]) (by rwa [hsize]) hs

/-- A pool of a megabyte with old contents: bits 9 and 17 are left of a vector of three bytes. -/
theorem bit_vector_of_three_bytes :
    let alloc : Alloc := fun size => if size ≤ 2 ^ 20 then some fun _ => 0xAA else none
    let ops : List BitOp := [.set 3, .set 17, .count, .del 3, .set 9]
    AddressSpace alloc ∧ ∃ bv₀, bitVectorOf alloc 20 = some bv₀ ∧
      (utilityBitVectorCount (execOps (utilityBitVectorClear bv₀) ops)).1 = 2 := by
  intro alloc ops
  have halloc : AddressSpace alloc := by
    intro size mem h
    by_contra hle
    have hnone : alloc size = none := if_neg (by omega)
    rw [hnone] at h
    cases h
  have hinit : bitVectorOf alloc 20 = some (utilityBitVectorInit (fun _ => 0xAA) 20) := rfl
  have hops : ∀ op ∈ ops, op.Below (8 * (utilityBitVectorInit (fun _ => 0xAA) 20).size) := by
    decide
  exact ⟨halloc, _, hinit, (bit_vector_set halloc hinit hops).2.1.trans (by decide)⟩

/-! ## The last byte and the one behind -/

def accessed (bv : BitVector) (bit : Nat) : Option Nat :=
  let pos := bit >>> 3
  if pos > bv.size then none else some pos

theorem get_accessed (bv : BitVector) (bit : Nat) :
    utilityBitVectorGet bv bit = (accessed bv bit).elim false fun pos => (bv.bits pos &&& bitMask bit) != 0 := by
  simp only [utilityBitVectorGet, accessed]
  split <;> rfl

theorem set_accessed (bv : BitVector) (bit : Nat) :
    utilityBitVectorSet bv bit = (accessed bv bit).elim bv fun pos =>
      { bv with bits := Function.update bv.bits pos (bv.bits pos ||| bitMask bit), count := -1 } := by
  simp only [utilityBitVectorSet, accessed]
  split <;> rfl

theorem del_accessed (bv : BitVector) (bit : Nat) :
    utilityBitVectorDel bv bit = (accessed bv bit).elim bv fun pos =>
      { bv with bits := Function.update bv.bits pos (bv.bits pos &&& ~~~bitMask bit), count := -1 } := by
  simp only [utilityBitVectorDel, accessed]
  split <;> rfl

/-- No byte outside of the vector is touched for the bit, and one that it does not have is not in
it and stays out. -/
structure InBounds (bv : BitVector) (bit : Nat) : Prop where
  inside : ∀ i, accessed bv bit = some i → i < bv.size
  get : 8 * bv.size ≤ bit → utilityBitVectorGet bv bit = false
  set : 8 * bv.size ≤ bit → utilityBitVectorSet bv bit = bv
  del : 8 * bv.size ≤ bit → utilityBitVectorDel bv bit = bv

/-- The guard compares with `>`. -/
theorem inBounds_iff (bv : BitVector) (bit : Nat) : InBounds bv bit ↔ bit / 8 ≠ bv.size := by
  have hpos : bit >>> 3 = bit / 8 := Nat.shiftRight_eq_div_pow bit 3
  constructor
  · intro h he
    have hacc : accessed bv bit = some (bit / 8) := by
      simp only [accessed, hpos]
      rw [if_neg (by omega)]
    have := h.inside _ hacc
    omega
  · intro hne
    have hbehind : 8 * bv.size ≤ bit → accessed bv bit = none := by
      intro hle
      simp only [accessed, hpos]
      rw [if_pos (by omega)]
    refine ⟨?_, ?_, ?_, ?_⟩
    · intro i hi
      by_cases hle : 8 * bv.size ≤ bit
      · rw [hbehind hle] at hi
        cases hi
      · simp only [accessed, hpos] at hi
        rw [if_neg (by omega)] at hi
        obtain rfl := Option.some.inj hi
        omega
    · intro hle
      rw [get_accessed, hbehind hle]
      rfl
    · intro hle
      rw [set_accessed, hbehind hle]
      rfl
    · intro hle
      rw [del_accessed, hbehind hle]
      rfl

/-- **The bounds**, after every run on a vector: the eight bits of the byte `size` are let through,
and no others. -/
theorem bit_bounds_iff (mem : Nat → UInt8) (n : Nat) (ops : List BitOp) (bit : Nat) :
    InBounds (execOps (utilityBitVectorInit mem n) ops) bit ↔ bit / 8 ≠ (utilityBitVectorInit mem n).size := by
  rw [inBounds_iff, size_execOps]

/-- The vector of all 32-bit numbers, asked for `2 ^ 32`. -/
theorem behind_all_bits : ¬ InBounds (utilityBitVectorInit (fun _ => 0) 0) (2 ^ 32) := by
  rw [inBounds_iff]
  exact not_not.2 (by decide)

end NgxPlus.BitVectorSet
