import Mathlib.Logic.Function.Iterate

/-!
# Cyclic redundancy checks, a bit and a byte at a time

The register is `w` bits wide and shifts up; message bits come most significant first
(`bitIn`), and `serial` is the check of a message. A shift is linear in exclusive or
(`shift_xor`), so eight message bits are eight shifts of the register with the byte added at
its top (`foldl_bitIn`). The byte at the top only depends on 256 values, which is what a table
holds (`TableOf`), and the rest moves up by eight: `serial_eq_foldl`.
-/

namespace Crc

variable {w : Nat} (poly : BitVec w)

/-- One message bit. -/
def bitIn (c : BitVec w) (b : Bool) : BitVec w :=
  if (c.msb ^^ b) = true then (c <<< 1) ^^^ poly else c <<< 1

/-- Most significant first. -/
def bitsOf (b : UInt8) : List Bool := (List.range 8).map b.toBitVec.getMsbD

/-- The check of a message. -/
def serial (init : BitVec w) (bs : List UInt8) : BitVec w := (bs.flatMap bitsOf).foldl (bitIn poly) init

/-- The register without a message. -/
def shift (c : BitVec w) : BitVec w := if c.msb = true then (c <<< 1) ^^^ poly else c <<< 1

theorem shift_xor (a b : BitVec w) : shift poly (a ^^^ b) = shift poly a ^^^ shift poly b := by
  unfold shift
  rw [BitVec.msb_xor, BitVec.shiftLeft_xor_distrib]
  generalize a <<< 1 = x
  generalize b <<< 1 = y
  cases a.msb <;> cases b.msb <;> ext i hi <;> simp
  · cases x[i] <;> cases y[i] <;> simp
  · cases x[i] <;> cases y[i] <;> cases poly[i] <;> simp

theorem shift_iterate_xor (n : Nat) (a b : BitVec w) :
    (shift poly)^[n] (a ^^^ b) = (shift poly)^[n] a ^^^ (shift poly)^[n] b := by
  induction n generalizing a b with
  | zero => rfl
  | succ n ih =>
    rw [Function.iterate_succ_apply, Function.iterate_succ_apply, Function.iterate_succ_apply, shift_xor, ih]

/-- Where the top bits are clear, the register only moves up. -/
theorem shift_iterate_low {c : BitVec w} {n : Nat} (h : ∀ i < n, c.getMsbD i = false) :
    (shift poly)^[n] c = c <<< n := by
  induction n with
  | zero => simp
  | succ n ih =>
    have hmsb : (c <<< n).msb = false := by
      rw [BitVec.msb_shiftLeft]
      exact h n (Nat.lt_succ_self n)
    rw [Function.iterate_succ_apply', ih fun i hi => h i (Nat.lt_succ_of_lt hi), shift, hmsb, BitVec.shiftLeft_add]
    simp

/-! ## Message bits at the top of the register -/

/-- The bits, the first one at the top. -/
def place : List Bool → BitVec w
  | [] => 0
  | b :: bs => (if b = true then BitVec.intMin w else 0) ^^^ (place bs >>> 1)

theorem getMsbD_place (bs : List Bool) (i : Nat) :
    (place bs : BitVec w).getMsbD i = (decide (i < w) && bs.getD i false) := by
  induction bs generalizing i with
  | nil => simp [place]
  | cons b bs ih =>
    rw [place, BitVec.getMsbD_xor, BitVec.getMsbD_ushiftRight, ih]
    cases i with
    | zero => cases b <;> simp [BitVec.getMsbD_intMin]
    | succ i => cases b <;> simp [BitVec.getMsbD_intMin] <;> grind

theorem bitIn_eq_shift (hw : 0 < w) (c : BitVec w) (b : Bool) :
    bitIn poly c b = shift poly (c ^^^ if b = true then BitVec.intMin w else 0) := by
  cases b with
  | false => simp [bitIn, shift]
  | true =>
    have htop : BitVec.intMin w <<< 1 = 0#w := by
      apply BitVec.eq_of_getMsbD_eq
      intro i _
      simp [BitVec.getMsbD_intMin]
    simp [bitIn, shift, BitVec.shiftLeft_xor_distrib, htop, BitVec.msb_intMin, hw]

/-- Bits that are not yet at the top move up. -/
theorem shift_place {bs : List Bool} (h : bs.length < w) : shift poly (place bs >>> 1) = (place bs : BitVec w) := by
  have hmsb : ((place bs : BitVec w) >>> 1).msb = false := by simp [BitVec.msb_ushiftRight]
  rw [shift, hmsb, if_neg (by decide)]
  apply BitVec.eq_of_getMsbD_eq
  intro i hi
  rw [BitVec.getMsbD_shiftLeft, BitVec.getMsbD_ushiftRight, getMsbD_place, getMsbD_place, Nat.add_sub_cancel]
  by_cases hlast : i + 1 < w
  · simp [hlast]
  · have hend : bs.length ≤ i := by omega
    simp [hlast, hend]

/-- Message bits in a row are added at the top of the register and shifted out. -/
theorem foldl_bitIn {bs : List Bool} (h : bs.length ≤ w) (c : BitVec w) :
    bs.foldl (bitIn poly) c = (shift poly)^[bs.length] (c ^^^ place bs) := by
  induction bs generalizing c with
  | nil => simp [place]
  | cons b bs ih =>
    have hlen : bs.length < w := h
    rw [List.foldl_cons, ih (Nat.le_of_lt hlen), List.length_cons, Function.iterate_succ_apply, place,
      ← BitVec.xor_assoc, shift_xor, shift_place poly hlen, bitIn_eq_shift poly (Nat.zero_lt_of_lt hlen)]

/-! ## Tables -/

/-- A byte at the top of the register. -/
def top (b : BitVec 8) : BitVec w := b.setWidth w <<< (w - 8)

/-- The entries are what eight shifts make of a byte at the top. -/
def TableOf (tab : BitVec 8 → BitVec w) : Prop := ∀ b, tab b = (shift poly)^[8] (top b)

/-- One message byte, by a table. -/
def byteIn (tab : BitVec 8 → BitVec w) (c : BitVec w) (b : UInt8) : BitVec w :=
  (c <<< 8) ^^^ tab ((c >>> (w - 8)).setWidth 8 ^^^ b.toBitVec)

theorem getMsbD_top (hw : 8 ≤ w) (b : BitVec 8) (i : Nat) : (top b : BitVec w).getMsbD i = b.getMsbD i := by
  rw [top, BitVec.getMsbD_shiftLeft, BitVec.getMsbD_setWidth]
  have hi : i + (w - 8) + 8 - w = i := by omega
  rw [hi]
  simp

theorem place_bitsOf (hw : 8 ≤ w) (b : UInt8) : (place (bitsOf b) : BitVec w) = top b.toBitVec := by
  apply BitVec.eq_of_getMsbD_eq
  intro i hi
  rw [getMsbD_place, getMsbD_top hw, bitsOf]
  by_cases h8 : i < 8
  · simp [hi, h8]
  · have hb : b.toBitVec.getMsbD i = false := BitVec.getMsbD_of_ge _ _ (by omega)
    simp [hi, h8, hb]

/-- The register is its top byte and what is below. -/
theorem eq_top_xor_low (hw : 8 ≤ w) (c : BitVec w) : c = top ((c >>> (w - 8)).setWidth 8) ^^^ ((c <<< 8) >>> 8) := by
  apply BitVec.eq_of_getMsbD_eq
  intro i hi
  rw [BitVec.getMsbD_xor, getMsbD_top hw, BitVec.getMsbD_setWidth, BitVec.getMsbD_ushiftRight,
    BitVec.getMsbD_ushiftRight, BitVec.getMsbD_shiftLeft]
  by_cases h8 : i < 8
  · have h0 : i + w - 8 - (w - 8) = i := by omega
    have h1 : i + w - 8 < w := by omega
    have h2 : ¬ i + w - 8 < w - 8 := by omega
    have h3 : 8 ≤ i + w := by omega
    simp [h8, h0, h1, h2, h3]
  · have h1 : ¬ i + w - 8 < w := by omega
    have h2 : i - 8 + 8 = i := by omega
    simp [h8, hi, h1, h2]

theorem top_xor (a b : BitVec 8) : (top (a ^^^ b) : BitVec w) = top a ^^^ top b := by
  rw [top, BitVec.setWidth_xor, BitVec.shiftLeft_xor_distrib]
  rfl

/-- A byte bit by bit is one step by the table. -/
theorem foldl_bitsOf {tab : BitVec 8 → BitVec w} (hw : 8 ≤ w) (htab : TableOf poly tab) (c : BitVec w) (b : UInt8) :
    (bitsOf b).foldl (bitIn poly) c = byteIn tab c b := by
  have hlen : (bitsOf b).length = 8 := rfl
  have hlow : (shift poly)^[8] ((c <<< 8) >>> 8) = c <<< 8 := by
    rw [shift_iterate_low poly fun i hi => by simp [BitVec.getMsbD_ushiftRight, hi]]
    apply BitVec.eq_of_getMsbD_eq
    intro i hi
    rw [BitVec.getMsbD_shiftLeft, BitVec.getMsbD_ushiftRight, BitVec.getMsbD_shiftLeft, Nat.add_sub_cancel]
    by_cases h8 : i + 8 < w
    · simp [h8]
    · have hc : c.getMsbD (i + 8) = false := BitVec.getMsbD_of_ge _ _ (by omega)
      simp [h8, hc]
  calc (bitsOf b).foldl (bitIn poly) c = (shift poly)^[8] (c ^^^ top b.toBitVec) := by
        rw [foldl_bitIn poly (by rw [hlen]; exact hw), hlen, place_bitsOf hw]
    _ = (shift poly)^[8] (top ((c >>> (w - 8)).setWidth 8) ^^^ ((c <<< 8) >>> 8) ^^^ top b.toBitVec) := by
        rw [← eq_top_xor_low hw c]
    _ = (shift poly)^[8] (top ((c >>> (w - 8)).setWidth 8 ^^^ b.toBitVec) ^^^ ((c <<< 8) >>> 8)) := by
        rw [top_xor, BitVec.xor_assoc, BitVec.xor_assoc, BitVec.xor_comm (top b.toBitVec)]
    _ = byteIn tab c b := by
        rw [shift_iterate_xor, hlow, ← htab, byteIn, BitVec.xor_comm]

/-- **The check by a table is the check by bits.** -/
theorem serial_eq_foldl {tab : BitVec 8 → BitVec w} (hw : 8 ≤ w) (htab : TableOf poly tab) (init : BitVec w)
    (bs : List UInt8) : serial poly init bs = bs.foldl (byteIn tab) init := by
  induction bs generalizing init with
  | nil => rfl
  | cons b bs ih =>
    have hcons : serial poly init (b :: bs) = serial poly ((bitsOf b).foldl (bitIn poly) init) bs := by
      simp only [serial, List.flatMap_cons, List.foldl_append]
    rw [hcons, foldl_bitsOf poly hw htab, ih, List.foldl_cons]

end Crc
