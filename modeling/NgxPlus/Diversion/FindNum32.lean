import NgxPlus.Diversion.GetPolicy
import NgxPlus.Lib.Checked

/-!
# The search of a number set (`find_num32`), with its reads checked

| here | there |
| --- | --- |
| `readUint32At`      | `utility_mqtt_read_uint32` (`mqtt_protocol.c:134-142`) on the array at `p`, byte by byte |
| `findNum32Loop`     | the loop of `find_num32` (`ngx_lua_diversion_module.cpp:1771-1784`) |
| `findNum32Checked`  | `find_num32` (`:1764-1787`); `high` is the `size_t` `len/4 - 1` put into an `int` |

`findNum32` reads a memory that goes on behind the array. Here there is nothing but the array:
a byte outside of it, on either side, stops the run (`Fault.outside`), and so does a loop that has
not ended after the rounds it is given (`Fault.running`). No array does the one
(`findNum32Loop_eq`, sorted or not), and seventeen rounds are enough for 65535 numbers.
-/

namespace NgxPlus.Diversion

open ByteMem Checked

def readUint32At (p : Bytes) (off : Int) : Except Fault Nat := do
  let b0 ← byteAt p off
  let b1 ← byteAt p (off + 1)
  let b2 ← byteAt p (off + 2)
  let b3 ← byteAt p (off + 3)
  return (b0.toNat <<< 24) + (b1.toNat <<< 16) + (b2.toNat <<< 8) + b3.toNat

/-- The division is that of C, towards zero. -/
def findNum32Loop (p : Bytes) (n : Nat) : Nat → Int → Int → Except Fault Bool
  | 0, _, _ => .error .running
  | rounds + 1, low, high =>
    if high ≥ low then do
      let midle := (high + low).tdiv 2
      let num32 ← readUint32At p (midle * 4)
      if n = num32 then return true
      else if n < num32 then findNum32Loop p n rounds low (midle - 1)
      else findNum32Loop p n rounds (midle + 1) high
    else return false

def findNum32Checked (rounds : Nat) (p : Bytes) (len n : Nat) : Except Fault Bool :=
  findNum32Loop p n rounds 0 ((sizeSub (len / 4) 1 : Int).bmod (2 ^ 32))

/-! ## The reads -/

/-- A number of the array is read as it is in memory. -/
theorem readUint32At_eq {p : Bytes} {k : Nat} (h : k * 4 + 4 ≤ p.length) :
    readUint32At p (k * 4) = .ok (utilityMqttReadUint32 ((memOf p).drop (k * 4))) := by
  have hbyte : ∀ j : Nat, j < 4 → byteAt p ((k : Int) * 4 + j) = .ok (((memOf p).drop (k * 4)).get j) := by
    intro j hj
    have hlt : k * 4 + j < p.length := by omega
    rw [Stream'.get_drop]
    exact_mod_cast byteAt_eq hlt _
  have h0 : byteAt p ((k : Int) * 4) = _ := (congrArg (byteAt p) (Int.add_zero _)).symm.trans (hbyte 0 (by decide))
  have h1 : byteAt p ((k : Int) * 4 + 1) = _ := hbyte 1 (by decide)
  have h2 : byteAt p ((k : Int) * 4 + 2) = _ := hbyte 2 (by decide)
  have h3 : byteAt p ((k : Int) * 4 + 3) = _ := hbyte 3 (by decide)
  rw [readUint32At, h0, h1, h2, h3]
  rfl

/-! ## The loop -/

/-- Half of the window goes in every round, and what is read lies in it. -/
theorem findNum32Loop_eq (p : Bytes) (n : Nat) (more : Nat) {rounds fuel : Nat} {low high : Int} (h0 : 0 ≤ low)
    (hp : (high + 1) * 4 ≤ p.length) (hr : high - low + 1 < 2 ^ rounds) (hf : high - low < fuel) :
    findNum32Loop p n (rounds + 1 + more) low high =
      .ok (BinSearch.search (fun i => compare n (utilityMqttReadUint32 ((memOf p).drop (i * 4))))
        fuel low high).isSome := by
  induction rounds generalizing fuel low high with
  | zero =>
    have hend : high < low := by omega
    rw [Nat.zero_add, Nat.add_comm, findNum32Loop, if_neg (by omega)]
    cases fuel with
    | zero => rfl
    | succ fuel => rw [BinSearch.search, if_pos hend]; rfl
  | succ rounds ih =>
    rw [Nat.add_right_comm (rounds + 1), findNum32Loop]
    by_cases hend : high < low
    · rw [if_neg (by omega)]
      cases fuel with
      | zero => rfl
      | succ fuel => rw [BinSearch.search, if_pos hend]; rfl
    · obtain ⟨fuel, rfl⟩ : ∃ f, fuel = f + 1 := ⟨fuel - 1, by omega⟩
      obtain ⟨k, hk⟩ : ∃ k : Nat, (high + low) / 2 = k := ⟨((high + low) / 2).toNat, by omega⟩
      have hmid : (high + low).tdiv 2 = k := by rw [Int.tdiv_eq_ediv_of_nonneg (by omega), hk]
      have hread : readUint32At p (k * 4) = .ok (utilityMqttReadUint32 ((memOf p).drop (k * 4))) :=
        readUint32At_eq (by omega)
      rw [Int.pow_succ] at hr
      simp only [BinSearch.search]
      rw [if_pos (by omega), if_neg hend, hmid, hread, hk, Int.toNat_natCast, Decode.ok_bind]
      generalize utilityMqttReadUint32 ((memOf p).drop (k * 4)) = num32
      rcases Nat.lt_trichotomy n num32 with hlt | heq | hgt
      · rw [if_neg (by omega), if_pos hlt, Nat.compare_eq_lt.2 hlt]
        exact ih h0 (by omega) (by omega) (by omega)
      · rw [if_pos heq, Nat.compare_eq_eq.2 heq]
        rfl
      · rw [if_neg (by omega), if_neg (by omega), Nat.compare_eq_gt.2 hgt]
        exact ih (by omega) hp (by omega) (by omega)

/-- An array of at most 65535 numbers is searched in seventeen rounds, by reads inside it. -/
theorem findNum32Checked_eq {p : Bytes} {rounds count : Nat} (n : Nat) (hp : p.length = count * 4)
    (hcount : count ≤ 65535) (hr : 17 ≤ rounds) :
    findNum32Checked rounds p (count * 4) n = .ok (findNum32 p (count * 4) n) := by
  obtain ⟨more, rfl⟩ := Nat.exists_eq_add_of_le hr
  have hdiv : count * 4 / 4 = count := Nat.mul_div_cancel count (by decide)
  have hhigh : (sizeSub count 1 : Int).bmod (2 ^ 32) = (count : Int) - 1 := by
    cases count with
    | zero => decide
    | succ c =>
      rw [sizeSub_of_le (by omega), Int.bmod_eq_of_le (by omega) (by omega)]
      omega
  rw [findNum32Checked, findNum32, hdiv, hhigh]
  have h16 : (count : Int) - 1 - 0 + 1 < 2 ^ 16 := by omega
  exact findNum32Loop_eq p n more le_rfl (by omega) h16 (by omega)

/-- **Set membership.** On ascending numbers the search ends, reads nothing outside of the array,
and finds a number exactly when it is there. -/
theorem find_num32_member (nums : List UInt32) (n : UInt32) {rounds : Nat} (hlen : nums.length ≤ 65535)
    (hs : nums.Pairwise (· ≤ ·)) (hr : 17 ≤ rounds) :
    findNum32Checked rounds (nums.flatMap fun x => utilityMqttWriteUint32 x.toNat) (nums.length * 4) n.toNat =
      .ok (decide (n ∈ nums)) := by
  generalize hvals : nums.map UInt32.toNat = vals
  have harr : (nums.flatMap fun x => utilityMqttWriteUint32 x.toNat) = vals.flatMap utilityMqttWriteUint32 := by
    rw [← hvals, List.flatMap_map]
  have hcount : nums.length = vals.length := by rw [← hvals, List.length_map]
  have hbound : ∀ v ∈ vals, v < 2 ^ 32 := by
    rw [← hvals]
    intro v hv
    obtain ⟨x, -, rfl⟩ := List.mem_map.1 hv
    exact x.toNat_lt
  have hbytes : (vals.flatMap utilityMqttWriteUint32).length = vals.length * 4 := by
    simp [List.length_flatMap]
  have hnums : arrayNums vals.length (memOf (vals.flatMap utilityMqttWriteUint32)) = vals := arrayNums_write hbound _
  have hsorted : vals.Pairwise (· ≤ ·) := by
    rw [← hvals]
    exact hs.map _ fun _ _ h => UInt32.le_iff_toNat_le.1 h
  have hmem : n.toNat ∈ vals ↔ n ∈ nums := by
    rw [← hvals, List.mem_map_of_injective fun _ _ => UInt32.toNat_inj.1]
  have hfind := findNum32_iff (n := vals.length) (v := n.toNat) (b := vals.flatMap utilityMqttWriteUint32)
    (by rw [hnums]; exact hsorted)
  rw [harr, hcount, findNum32Checked_eq n.toNat hbytes (hcount ▸ hlen) hr]
  rw [hnums, hmem] at hfind
  exact congrArg Except.ok (Bool.eq_iff_iff.2 (by rw [hfind, decide_eq_true_iff]))

/-- Equal neighbours, and the number among them. -/
theorem find_num32_repeated : [(1 : UInt32), 2, 2, 7].Pairwise (· ≤ ·) ∧
    findNum32Checked 17 ([(1 : UInt32), 2, 2, 7].flatMap fun x => utilityMqttWriteUint32 x.toNat) (4 * 4) 2 =
      .ok true := by
  have hs : [(1 : UInt32), 2, 2, 7].Pairwise (· ≤ ·) := by decide
  exact ⟨hs, find_num32_member [1, 2, 2, 7] 2 (by decide) hs le_rfl⟩

end NgxPlus.Diversion
