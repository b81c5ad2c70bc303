import NgxPlus.Lib.Crc
import NgxPlus.Lualib.Redis3

/-!
# The hash of a cluster key (`lib/redis3.lua`, `mqtt_protocol.c`)

| here | there |
| --- | --- |
| `crc16tab`              | the table of `mqtt_protocol.c:249-281`; that of `redis3.lua:22-54` is `Redis3.crc16tab` |
| `luaUtilityRedisCRC16`  | `mqtt_protocol.c:283-289`; `signedChar` is whether the compiler's plain `char` is signed |
| `luaRedisCRC16`         | `_M.redisCRC16` (`redis3.lua:59-68`); `none` is a raised error |
| `crc16`                 | the bit-serial definition: polynomial `0x1021`, initial value 0, most significant bit first |

The arithmetic is that of a 32-bit `int` in C, and of LuaJIT's bit operations, whose results are
signed 32-bit numbers. Both store the result in a `uint16_t`. Only C masks the index: in Lua the
shift is logical and the byte is not signed, so the index is below 256 by itself (`luaIndex_eq`).
-/

namespace NgxPlus.Crc16

open ByteMem

def crc16tab : List UInt16 :=
  [0x0000, 0x1021, 0x2042, 0x3063, 0x4084, 0x50a5, 0x60c6, 0x70e7, 0x8108, 0x9129, 0xa14a, 0xb16b,
    0xc18c, 0xd1ad, 0xe1ce, 0xf1ef, 0x1231, 0x0210, 0x3273, 0x2252, 0x52b5, 0x4294, 0x72f7, 0x62d6,
    0x9339, 0x8318, 0xb37b, 0xa35a, 0xd3bd, 0xc39c, 0xf3ff, 0xe3de, 0x2462, 0x3443, 0x0420, 0x1401,
    0x64e6, 0x74c7, 0x44a4, 0x5485, 0xa56a, 0xb54b, 0x8528, 0x9509, 0xe5ee, 0xf5cf, 0xc5ac, 0xd58d,
    0x3653, 0x2672, 0x1611, 0x0630, 0x76d7, 0x66f6, 0x5695, 0x46b4, 0xb75b, 0xa77a, 0x9719, 0x8738,
    0xf7df, 0xe7fe, 0xd79d, 0xc7bc, 0x48c4, 0x58e5, 0x6886, 0x78a7, 0x0840, 0x1861, 0x2802, 0x3823,
    0xc9cc, 0xd9ed, 0xe98e, 0xf9af, 0x8948, 0x9969, 0xa90a, 0xb92b, 0x5af5, 0x4ad4, 0x7ab7, 0x6a96,
    0x1a71, 0x0a50, 0x3a33, 0x2a12, 0xdbfd, 0xcbdc, 0xfbbf, 0xeb9e, 0x9b79, 0x8b58, 0xbb3b, 0xab1a,
    0x6ca6, 0x7c87, 0x4ce4, 0x5cc5, 0x2c22, 0x3c03, 0x0c60, 0x1c41, 0xedae, 0xfd8f, 0xcdec, 0xddcd,
    0xad2a, 0xbd0b, 0x8d68, 0x9d49, 0x7e97, 0x6eb6, 0x5ed5, 0x4ef4, 0x3e13, 0x2e32, 0x1e51, 0x0e70,
    0xff9f, 0xefbe, 0xdfdd, 0xcffc, 0xbf1b, 0xaf3a, 0x9f59, 0x8f78, 0x9188, 0x81a9, 0xb1ca, 0xa1eb,
    0xd10c, 0xc12d, 0xf14e, 0xe16f, 0x1080, 0x00a1, 0x30c2, 0x20e3, 0x5004, 0x4025, 0x7046, 0x6067,
    0x83b9, 0x9398, 0xa3fb, 0xb3da, 0xc33d, 0xd31c, 0xe37f, 0xf35e, 0x02b1, 0x1290, 0x22f3, 0x32d2,
    0x4235, 0x5214, 0x6277, 0x7256, 0xb5ea, 0xa5cb, 0x95a8, 0x8589, 0xf56e, 0xe54f, 0xd52c, 0xc50d,
    0x34e2, 0x24c3, 0x14a0, 0x0481, 0x7466, 0x6447, 0x5424, 0x4405, 0xa7db, 0xb7fa, 0x8799, 0x97b8,
    0xe75f, 0xf77e, 0xc71d, 0xd73c, 0x26d3, 0x36f2, 0x0691, 0x16b0, 0x6657, 0x7676, 0x4615, 0x5634,
    0xd94c, 0xc96d, 0xf90e, 0xe92f, 0x99c8, 0x89e9, 0xb98a, 0xa9ab, 0x5844, 0x4865, 0x7806, 0x6827,
    0x18c0, 0x08e1, 0x3882, 0x28a3, 0xcb7d, 0xdb5c, 0xeb3f, 0xfb1e, 0x8bf9, 0x9bd8, 0xabbb, 0xbb9a,
    0x4a75, 0x5a54, 0x6a37, 0x7a16, 0x0af1, 0x1ad0, 0x2ab3, 0x3a92, 0xfd2e, 0xed0f, 0xdd6c, 0xcd4d,
    0xbdaa, 0xad8b, 0x9de8, 0x8dc9, 0x7c26, 0x6c07, 0x5c64, 0x4c45, 0x3ca2, 0x2c83, 0x1ce0, 0x0cc1,
    0xef1f, 0xff3e, 0xcf5d, 0xdf7c, 0xaf9b, 0xbfba, 0x8fd9, 0x9ff8, 0x6e17, 0x7e36, 0x4e55, 0x5e74,
    0x2e93, 0x3eb2, 0x0ed1, 0x1ef0]

/-! ## The two loops -/

/-- `*buf++`, promoted to `int`. -/
def promote (signedChar : Bool) (c : UInt8) : BitVec 32 :=
  if signedChar then c.toBitVec.signExtend 32 else c.toBitVec.setWidth 32

/-- `((crc>>8) ^ *buf++)&0x00FF`. -/
def tableIndex (signedChar : Bool) (crc : UInt16) (c : UInt8) : BitVec 32 :=
  (((crc.toBitVec.setWidth 32).sshiftRight 8) ^^^ promote signedChar c) &&& 0x00FF#32

/-- The body of the loop. -/
def crcRound (signedChar : Bool) (crc : UInt16) (c : UInt8) : UInt16 :=
  let entry := crc16tab.getD (tableIndex signedChar crc c).toNat 0
  ⟨((crc.toBitVec.setWidth 32 <<< 8) ^^^ entry.toBitVec.setWidth 32).setWidth 16⟩

def luaUtilityRedisCRC16 (signedChar : Bool) (buf : Mem) (len : Int) : UInt16 :=
  (List.range len.toNat).foldl (fun crc counter => crcRound signedChar crc (buf.get counter)) 0

/-- `bit.bxor(bit.rshift(crc[0].crc, 8), byte)+1`. -/
def luaIndex (crc : UInt16) (byte : UInt8) : Int :=
  ((crc.toBitVec.setWidth 32 >>> 8) ^^^ byte.toBitVec.setWidth 32).toInt + 1

/-- The entry of a Lua table that was written as a list. -/
def luaEntry (tab : List UInt16) (i : Int) : Option UInt16 := if 1 ≤ i then tab[(i - 1).toNat]? else none

/-- The body of the loop; `nil` is no operand of `bit.bxor`. -/
def luaRound (crc : UInt16) (byte : UInt8) : Option UInt16 := do
  let entry ← luaEntry Redis3.crc16tab (luaIndex crc byte)
  return ⟨((crc.toBitVec.setWidth 32 <<< 8) ^^^ entry.toBitVec.setWidth 32).setWidth 16⟩

/-- `buf` is indexed from 1. -/
def luaRedisCRC16 (buf : Bytes) (len : Nat) : Option UInt16 :=
  (List.range' 1 len).foldlM (fun crc i => do luaRound crc (← buf[i - 1]?)) 0

def crc16 (buf : Bytes) : UInt16 := ⟨Crc.serial 0x1021#16 0 buf⟩

/-! ## The index -/

/-- The byte that both index the table with. -/
def indexByte (crc : UInt16) (c : UInt8) : BitVec 8 := (crc.toBitVec >>> 8).setWidth 8 ^^^ c.toBitVec

theorem getLsbD_promote (signedChar : Bool) (c : UInt8) {i : Nat} (hi : i < 8) :
    (promote signedChar c).getLsbD i = c.toBitVec.getLsbD i := by
  have h32 : i < 32 := by omega
  cases signedChar with
  | false => simp only [promote, Bool.false_eq_true, if_false, BitVec.getLsbD_setWidth, h32, decide_true, Bool.true_and]
  | true => simp only [promote, if_true, BitVec.getLsbD_signExtend, h32, hi, decide_true, Bool.true_and]

/-- The field is not negative: either shift is the shift of its sixteen bits. -/
theorem sshiftRight_field (crc : UInt16) :
    (crc.toBitVec.setWidth 32).sshiftRight 8 = crc.toBitVec.setWidth 32 >>> 8 := by
  refine BitVec.sshiftRight_eq_of_msb_false ?_
  rw [BitVec.msb_setWidth]
  exact BitVec.getLsbD_of_ge _ _ (by decide)

theorem getLsbD_field (crc : UInt16) {i : Nat} (hi : i < 24) :
    (crc.toBitVec.setWidth 32 >>> 8).getLsbD i = crc.toBitVec.getLsbD (8 + i) := by
  have h32 : 8 + i < 32 := by omega
  rw [BitVec.getLsbD_ushiftRight, BitVec.getLsbD_setWidth, decide_eq_true h32, Bool.true_and]

theorem testBit_ff : ∀ i < 32, (0x00FF#32).getLsbD i = decide (i < 8) := by decide

/-- Masked, the index is a byte, whatever the sign extension put above it. -/
theorem tableIndex_eq (signedChar : Bool) (crc : UInt16) (c : UInt8) :
    tableIndex signedChar crc c = (indexByte crc c).setWidth 32 := by
  apply BitVec.eq_of_getLsbD_eq
  intro i hi
  rw [tableIndex, indexByte, BitVec.getLsbD_and, testBit_ff i hi, BitVec.getLsbD_setWidth, sshiftRight_field]
  by_cases h8 : i < 8
  · rw [BitVec.getLsbD_xor, getLsbD_field _ (by omega), getLsbD_promote _ _ h8, BitVec.getLsbD_xor,
      BitVec.getLsbD_setWidth, BitVec.getLsbD_ushiftRight]
    simp [h8, hi]
  · have hb : c.toBitVec.getLsbD i = false := BitVec.getLsbD_of_ge _ _ (by omega)
    simp [h8, hb]

/-- Unmasked, it is the same byte: above it both are zero. -/
theorem luaXor_eq (crc : UInt16) (c : UInt8) :
    (crc.toBitVec.setWidth 32 >>> 8) ^^^ c.toBitVec.setWidth 32 = (indexByte crc c).setWidth 32 := by
  apply BitVec.eq_of_getLsbD_eq
  intro i hi
  rw [indexByte, BitVec.getLsbD_xor, BitVec.getLsbD_setWidth, BitVec.getLsbD_setWidth, BitVec.getLsbD_xor,
    BitVec.getLsbD_setWidth, BitVec.getLsbD_ushiftRight, BitVec.getLsbD_ushiftRight, BitVec.getLsbD_setWidth]
  by_cases h8 : i < 8
  · have h32 : 8 + i < 32 := by omega
    simp [h8, hi, h32]
  · have hc : crc.toBitVec.getLsbD (8 + i) = false := BitVec.getLsbD_of_ge _ _ (by omega)
    have hb : c.toBitVec.getLsbD i = false := BitVec.getLsbD_of_ge _ _ (by omega)
    simp [h8, hc, hb]

theorem toNat_index (b : BitVec 8) : (b.setWidth 32).toNat = b.toNat := by
  rw [BitVec.toNat_setWidth, Nat.mod_eq_of_lt (by omega)]

theorem luaIndex_eq (crc : UInt16) (byte : UInt8) : luaIndex crc byte = (indexByte crc byte).toNat + 1 := by
  have hlt := (indexByte crc byte).isLt
  rw [luaIndex, luaXor_eq, BitVec.toInt_eq_toNat_of_lt (by rw [toNat_index]; omega), toNat_index]

/-! ## The table -/

def table (b : BitVec 8) : BitVec 16 := (crc16tab.getD b.toNat 0).toBitVec

/-- The two copies of the table are the same. -/
theorem crc16tab_eq : crc16tab = Redis3.crc16tab := rfl

/-- Every entry is eight shifts of its index. -/
theorem tableOf_table : Crc.TableOf 0x1021#16 table := by
  unfold Crc.TableOf
  decide +kernel

/-- What both loops leave in the field. -/
theorem store_field (crc entry : UInt16) :
    ((crc.toBitVec.setWidth 32 <<< 8) ^^^ entry.toBitVec.setWidth 32).setWidth 16 =
      (crc.toBitVec <<< 8) ^^^ entry.toBitVec := by
  apply BitVec.eq_of_getLsbD_eq
  intro i hi
  have h32 : i < 32 := by omega
  have h8 : i - 8 < 32 := by omega
  simp only [BitVec.getLsbD_setWidth, BitVec.getLsbD_xor, BitVec.getLsbD_shiftLeft, hi, h32, h8, decide_true,
    Bool.true_and]

theorem crcRound_eq (signedChar : Bool) (crc : UInt16) (c : UInt8) :
    crcRound signedChar crc c = ⟨Crc.byteIn table crc.toBitVec c⟩ := by
  simp only [crcRound]
  rw [store_field, tableIndex_eq, toNat_index]
  rfl

theorem luaRound_eq (crc : UInt16) (byte : UInt8) : luaRound crc byte = some ⟨Crc.byteIn table crc.toBitVec byte⟩ := by
  have hlen : Redis3.crc16tab.length = 256 := by decide +kernel
  have hlt : (indexByte crc byte).toNat < Redis3.crc16tab.length := by
    rw [hlen]
    exact (indexByte crc byte).isLt
  have hentry : luaEntry Redis3.crc16tab (luaIndex crc byte) = some (crc16tab.getD (indexByte crc byte).toNat 0) := by
    rw [luaIndex_eq, luaEntry, if_pos (by omega), crc16tab_eq]
    have hi : ((indexByte crc byte).toNat + 1 - 1 : Int).toNat = (indexByte crc byte).toNat := by omega
    rw [hi, List.getElem?_eq_getElem hlt, List.getD_eq_getElem?_getD, List.getElem?_eq_getElem hlt, Option.getD_some]
  rw [luaRound, hentry]
  simp only [Option.bind_eq_bind, Option.bind_some, Option.pure_def, store_field]
  rfl

/-! ## The loops -/

theorem foldl_byteIn (buf : Bytes) (crc : UInt16) :
    buf.foldl (fun crc c => (⟨Crc.byteIn table crc.toBitVec c⟩ : UInt16)) crc =
      ⟨Crc.serial 0x1021#16 crc.toBitVec buf⟩ := by
  rw [Crc.serial_eq_foldl _ (by decide) tableOf_table]
  induction buf generalizing crc with
  | nil => rfl
  | cons c buf ih => rw [List.foldl_cons, ih, List.foldl_cons]

theorem luaUtilityRedisCRC16_eq (signedChar : Bool) (buf : Bytes) (behind : Mem) :
    luaUtilityRedisCRC16 signedChar (buf ++ₛ behind) buf.length = crc16 buf := by
  have hbuf : (List.range buf.length).map (buf ++ₛ behind).get = buf := by
    apply List.ext_getElem (by simp)
    intro i h1 h2
    simp [Stream'.get_append_left i buf behind h2]
  have hround : crcRound signedChar = fun crc c => ⟨Crc.byteIn table crc.toBitVec c⟩ := by
    funext crc c
    exact crcRound_eq signedChar crc c
  calc luaUtilityRedisCRC16 signedChar (buf ++ₛ behind) buf.length
      = ((List.range buf.length).map (buf ++ₛ behind).get).foldl (crcRound signedChar) 0 := by
        rw [List.foldl_map, luaUtilityRedisCRC16, Int.toNat_natCast]
    _ = crc16 buf := by
        rw [hbuf, hround]
        exact foldl_byteIn buf 0

/-- From index `i` on. -/
theorem foldlM_luaRound {buf rest : Bytes} {i : Nat} (crc : UInt16) (h : buf.drop i = rest) :
    (List.range' (i + 1) rest.length).foldlM (fun crc i => do luaRound crc (← buf[i - 1]?)) crc =
      some (rest.foldl (fun crc c => ⟨Crc.byteIn table crc.toBitVec c⟩) crc) := by
  induction rest generalizing i crc with
  | nil => rfl
  | cons c rest ih =>
    have hget : buf[i + 1 - 1]? = some c := by
      rw [Nat.add_sub_cancel, ← List.head?_drop, h]
      rfl
    have hrest : buf.drop (i + 1) = rest := by
      rw [← List.tail_drop, h]
      rfl
    have hround : (do luaRound crc (← buf[i + 1 - 1]?)) = some ⟨Crc.byteIn table crc.toBitVec c⟩ := by
      rw [hget]
      exact luaRound_eq crc c
    rw [List.length_cons, List.range'_succ, List.foldlM_cons, hround]
    exact ih _ hrest

theorem luaRedisCRC16_eq (buf : Bytes) : luaRedisCRC16 buf buf.length = some (crc16 buf) := by
  have h := foldlM_luaRound 0 (List.drop_zero (l := buf))
  rw [foldl_byteIn] at h
  exact h

/-- **One hash.** Both programs, on either kind of `char`, compute the bit-serial CRC-16. -/
theorem crc16_three_agree (buf : Bytes) (behind : Mem) (signedChar : Bool) :
    luaRedisCRC16 buf buf.length = some (crc16 buf) ∧
      luaUtilityRedisCRC16 signedChar (buf ++ₛ behind) buf.length = crc16 buf :=
  ⟨luaRedisCRC16_eq buf, luaUtilityRedisCRC16_eq signedChar buf behind⟩

/-- The client's slot is that of the hash. -/
theorem redisCRC16_eq (buf : Bytes) : Redis3.redisCRC16 buf = crc16 buf := by
  have hround : (fun (crc : UInt16) (b : UInt8) =>
      (crc <<< 8) ^^^ Redis3.crc16tab.getD ((crc >>> 8).toNat ^^^ b.toNat) 0) =
        fun crc c => ⟨Crc.byteIn table crc.toBitVec c⟩ := by
    funext crc c
    have hidx : (crc >>> 8).toNat ^^^ c.toNat = (indexByte crc c).toNat := by
      have hlt := crc.toNat_lt
      have hhigh : crc.toNat >>> 8 < 2 ^ 8 := by omega
      rw [indexByte, BitVec.toNat_xor, BitVec.toNat_setWidth, BitVec.toNat_ushiftRight, UInt16.toNat_shiftRight,
        UInt16.toNat_toBitVec, UInt8.toNat_toBitVec, Nat.mod_eq_of_lt hhigh]
      rfl
    rw [hidx, ← crc16tab_eq]
    rfl
  rw [Redis3.redisCRC16, hround]
  exact foldl_byteIn buf 0

/-- `"123456789"`, the check value of the polynomial. -/
example : crc16 [0x31, 0x32, 0x33, 0x34, 0x35, 0x36, 0x37, 0x38, 0x39] = 0x31C3 := by decide +kernel

end NgxPlus.Crc16
