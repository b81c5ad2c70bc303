import NgxPlus.Lib.ByteMem

/-!
# Segments of a memory

`seg m p q` is what lies between the offsets `p` and `q`. Segments that follow each other make
one (`seg_append`); writing behind a segment leaves it alone (`seg_write`), and what was written is
the segment from there on (`seg_write_self`).
-/

namespace ByteMem

def seg (m : Mem) (p q : Nat) : Bytes := (m.drop p).take (q - p)

@[simp] theorem seg_self (m : Mem) (p : Nat) : seg m p p = [] := by
  rw [seg, Nat.sub_self]
  rfl

@[simp] theorem length_seg (m : Mem) (p q : Nat) : (seg m p q).length = q - p :=
  Stream'.length_take ..

theorem seg_append (m : Mem) {p q r : Nat} (hpq : p ≤ q) (hqr : q ≤ r) :
    seg m p q ++ seg m q r = seg m p r := by
  obtain ⟨a, rfl⟩ := Nat.exists_eq_add_of_le hpq
  obtain ⟨b, rfl⟩ := Nat.exists_eq_add_of_le hqr
  have hb : p + a + b - (p + a) = b := by omega
  have hab : p + a + b - p = a + b := by omega
  rw [seg, seg, seg, Nat.add_sub_cancel_left, hb, hab, Stream'.take_add, Stream'.drop_drop]

theorem take_seg (m : Mem) {p q n : Nat} (h : p + n ≤ q) : (seg m p q).take n = seg m p (p + n) := by
  rw [← seg_append m (Nat.le_add_right p n) h, List.take_left' (by simp)]

/-- What lies before the place of writing is as it was. -/
theorem seg_write (m : Mem) (bs : Bytes) {p q off : Nat} (h : q ≤ off) : seg (write m off bs) p q = seg m p q := by
  rcases Nat.le_total p q with hpq | hqp
  · exact take_drop_write m bs (by omega)
  · rw [seg, seg, Nat.sub_eq_zero_of_le hqp]
    rfl

theorem seg_write_self (m : Mem) (off : Nat) (bs : Bytes) :
    seg (write m off bs) off (off + bs.length) = bs := by
  rw [seg, drop_write, take_append_of_eq _ _ (by omega)]

/-- Bytes received behind a segment lengthen it. -/
theorem seg_write_append (m : Mem) (bs : Bytes) {p off : Nat} (h : p ≤ off) :
    seg (write m off bs) p (off + bs.length) = seg m p off ++ bs := by
  rw [← seg_append _ h (Nat.le_add_right off bs.length), seg_write m bs le_rfl, seg_write_self]

end ByteMem
