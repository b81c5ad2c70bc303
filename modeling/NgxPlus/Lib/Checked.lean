import NgxPlus.Lib.ByteMem

/-!
# Arrays with nothing behind them

`byteAt p i` is `p[i]` where the array ends with its bytes: an index on either side of them is a
fault. A loop over such reads that is given a number of rounds may also be `running` when they
are used up. A run without a fault reads the same on the memory that the array is the front of
(`get_of_byteAt`).
-/

namespace Checked

open ByteMem

/-- What a run can end with instead of an answer. -/
inductive Fault
  | outside (i : Int)
  | running
deriving DecidableEq

def byteAt (p : Bytes) (i : Int) : Except Fault UInt8 :=
  if 0 ≤ i ∧ i < p.length then .ok (p.getD i.toNat 0) else .error (.outside i)

theorem byteAt_eq {p : Bytes} {i : Nat} (h : i < p.length) (behind : Mem) :
    byteAt p i = .ok ((p ++ₛ behind).get i) := by
  have hi : (0 : Int) ≤ i ∧ (i : Int) < p.length := by omega
  rw [byteAt, if_pos hi, Int.toNat_natCast, Stream'.get_append_left i p _ h, List.getD_eq_getElem?_getD,
    List.getElem?_eq_getElem h, Option.getD_some]

theorem byteAt_outside {p : Bytes} {i : Nat} (h : p.length ≤ i) : byteAt p i = .error (.outside i) := by
  rw [byteAt, if_neg (by omega)]

theorem get_of_byteAt {p : Bytes} {i : Nat} {b : UInt8} (h : byteAt p i = .ok b) (behind : Mem) :
    (p ++ₛ behind).get i = b := by
  rcases Nat.lt_or_ge i p.length with hi | hi
  · rw [byteAt_eq hi behind] at h
    exact Except.ok.inj h
  · rw [byteAt_outside hi] at h
    cases h

end Checked
