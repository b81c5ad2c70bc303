import Mathlib.Data.List.Induction
import NgxPlus.Lib.ByteMem
import NgxPlus.Lib.HashRing

/-!
# Consistent hashing (`lib/chash.lua`)

| here | there |
| --- | --- |
| `Ups`, `Cache`       | the object of an upstream with `VIRTUAL_NODE` and `BUCKETS`; `G_CACHE` |
| `getUpsObj`          | `chash_getUpsObj` (`:12-21`) |
| `hashFind`           | `hash_find` (`:55-71`); `none` is the error of an index that is `nil` |
| `fillBuckets`        | the last loop of `add_server` (`:43-45`) |
| `addServer`          | `_M.add_server` (`:27-46`) |
| `getUpstream`        | `_M.get_upstream` (`:79-86`) |
| `cleanUpstream`      | `chash_clean_upstream` (`:91-97`) |

The hash function is a parameter. `server` is the list of the values in the order in which
`pairs` delivers them.

`hash_find` takes the first virtual node at or behind the point, the lowest one behind the last
(`HashRing.owner`), with one exception: on the range `1..2` its middle is 1 and it answers
with the first node although the point lies behind it. The search comes to that range when
the number of nodes plus one is written in binary with two leading ones (`SlipSize`), which is
so for three servers and not for two.
-/

namespace NgxPlus.Chash

open ByteMem HashRing

/-! ## The module -/

def virtualCount : Nat := 160
def consistentBuckets : Nat := 1024

structure Node where
  server : Bytes
  hash : Nat
deriving DecidableEq

structure Ups where
  virtualNode : List Node
  buckets : List Node

abbrev Cache := Bytes → Option Ups

def getUpsObj (g : Cache) (upsName : Bytes) : Ups × Cache :=
  match g upsName with
  | some obj => (obj, g)
  | none => (⟨[], []⟩, Function.update g upsName (some ⟨[], []⟩))

/-- An index from 1 on. -/
def index (v : List Node) (i : Nat) : Option Node := if i = 0 then none else v[i - 1]?

def hashFind (v : List Node) (key : Nat) : Nat → Nat → Nat → Option Node
  | 0, _, _ => none
  | fuel + 1, lo, hi => do
    let first ← index v lo
    if key ≤ first.hash then some first
    else
      let last ← index v hi
      if key > last.hash then some first
      else
        let middle := lo + (hi - lo) / 2
        let mid ← index v middle
        if middle = 1 then some mid
        else if key > mid.hash then hashFind v key fuel (middle + 1) hi
        else
          let before ← index v (middle - 1)
          if key > before.hash then some mid else hashFind v key fuel lo (middle - 1)

/-- `v .. '-' .. n`. -/
def hashKey (v : Bytes) (n : Nat) : Bytes := v ++ (0x2d :: (Nat.toDigits 10 n).map fun c => UInt8.ofNat c.toNat)

def slice : Nat := 0xFFFFFFFF / consistentBuckets

/-- From the `i`-th bucket on, `n` times; `false` when a search raises. -/
def fillBuckets (v : List Node) : Nat → Nat → List Node → List Node × Bool
  | 0, _, buckets => (buckets, true)
  | n + 1, i, buckets =>
    match hashFind v (slice * i) (v.length + 1) 1 v.length with
    | none => (buckets, false)
    | some node => fillBuckets v n (i + 1) (buckets.insertIdx i node)

def getUpstreamObj (crc32 : Bytes → Nat) (obj : Ups) (key : Bytes) : Option Bytes :=
  if obj.buckets.length = 0 then none
  else (obj.buckets[crc32 key % consistentBuckets]?).map Node.server

section

variable (crc32 : Bytes → Nat)

def virtualNodes (v : Bytes) : List Node := (List.range virtualCount).map fun n => ⟨v, crc32 (hashKey v n)⟩

def sortNodes (v : List Node) : List Node := v.insertionSort fun a b => a.hash ≤ b.hash

/-- The cache, and whether the call returns. -/
def addServer (g : Cache) (upsName : Bytes) (server : List Bytes) : Cache × Bool :=
  let (obj, g) := getUpsObj g upsName
  let v := sortNodes (obj.virtualNode ++ server.flatMap (virtualNodes crc32))
  let (buckets, ok) := fillBuckets v consistentBuckets 0 obj.buckets
  (Function.update g upsName (some ⟨v, buckets⟩), ok)

def getUpstream (g : Cache) (upsName key : Bytes) : Option Bytes × Cache :=
  let (obj, g) := getUpsObj g upsName
  (getUpstreamObj crc32 obj key, g)

def cleanUpstream (g : Cache) (upsName : Bytes) : Cache :=
  Function.update (getUpsObj g upsName).2 upsName (some ⟨[], []⟩)

/-- `clean_upstream`, and then a call of `add_server` for each list. -/
def build (upsName : Bytes) (g : Cache) (calls : List (List Bytes)) : Cache :=
  calls.foldl (fun g server => (addServer crc32 g upsName server).1) (cleanUpstream g upsName)

end

/-! ## The search -/

/-- `n + 1` has two leading ones. -/
def SlipSize (n : Nat) : Prop := ∃ k, 3 * 2 ^ k ≤ n + 1 ∧ n + 1 < 4 * 2 ^ k

theorem slipSize_two : SlipSize 2 := ⟨0, by decide, by decide⟩

theorem not_slipSize_of_mid {n : Nat} (h1 : 3 ≤ n) (h2 : n ≤ 4) : ¬ SlipSize n := by
  rintro ⟨k, h3, h4⟩
  rcases k with _ | k
  · omega
  · have : 1 ≤ 2 ^ k := Nat.one_le_two_pow
    rw [pow_succ] at h3
    omega

theorem slipSize_half {n : Nat} (h : 5 ≤ n) : SlipSize n ↔ SlipSize ((n - 1) / 2) := by
  constructor
  · rintro ⟨k, h1, h2⟩
    rcases k with _ | k
    · omega
    · refine ⟨k, ?_, ?_⟩ <;> rw [pow_succ] at h1 h2 <;> omega
  · rintro ⟨k, h1, h2⟩
    refine ⟨k + 1, ?_, ?_⟩ <;> rw [pow_succ] <;> omega

section Search

variable {v : List Node} {key : Nat}

theorem exists_index {i : Nat} (h1 : 1 ≤ i) (h2 : i ≤ v.length) : ∃ a, index v i = some a :=
  ⟨v[i - 1], by rw [index, if_neg (by omega)]; exact List.getElem?_eq_getElem (by omega)⟩

theorem index_succ (i : Nat) : index v (i + 1) = v[i]? := rfl

theorem index_le_length {i : Nat} {a : Node} (h : index v i = some a) : 1 ≤ i ∧ i ≤ v.length := by
  cases i with
  | zero => simp [index] at h
  | succ i =>
    rw [index_succ] at h
    obtain ⟨hi, -⟩ := List.getElem?_eq_some_iff.1 h
    omega

/-- The place that the search is for. -/
def Found (v : List Node) (key : Nat) (r : Option Node) : Prop :=
  ∃ i a b, r = some a ∧ index v (i + 1) = some a ∧ index v i = some b ∧ b.hash < key ∧ key ≤ a.hash

variable (hs : v.Pairwise fun a b => a.hash ≤ b.hash)
include hs

theorem index_mono {i j : Nat} {a b : Node} (hij : i ≤ j) (ha : index v i = some a) (hb : index v j = some b) :
    a.hash ≤ b.hash := by
  obtain ⟨hi, -⟩ := index_le_length ha
  obtain ⟨i, rfl⟩ : ∃ k, i = k + 1 := ⟨i - 1, by omega⟩
  obtain ⟨j, rfl⟩ : ∃ k, j = k + 1 := ⟨j - 1, by omega⟩
  rw [index_succ] at ha hb
  obtain ⟨hi, rfl⟩ := List.getElem?_eq_some_iff.1 ha
  obtain ⟨hj, rfl⟩ := List.getElem?_eq_some_iff.1 hb
  rcases Nat.lt_or_eq_of_le hij with h | h
  · exact List.pairwise_iff_getElem.1 hs i j hi hj (by omega)
  · obtain rfl : i = j := by omega
    exact le_rfl

/-- Behind a node that lies before the key, the search is right. -/
theorem hashFind_right {fuel lo hi : Nat} (hfuel : hi - lo < fuel) (hlo : lo ≤ hi) {p last : Node}
    (hp : index v (lo - 1) = some p) (hpk : p.hash < key) (hl : index v hi = some last) (hkl : key ≤ last.hash) :
    Found v key (hashFind v key fuel lo hi) := by
  induction fuel generalizing lo hi p last with
  | zero => omega
  | succ fuel ih =>
    obtain ⟨h2, -⟩ := index_le_length hp
    obtain ⟨-, hhi⟩ := index_le_length hl
    obtain ⟨first, hf⟩ := exists_index (v := v) (i := lo) (by omega) (by omega)
    simp only [hashFind, hf, hl, Option.bind_eq_bind, Option.bind_some]
    by_cases hkf : key ≤ first.hash
    · rw [if_pos hkf]
      exact ⟨lo - 1, first, p, rfl, by rw [Nat.sub_add_cancel (by omega)]; exact hf, hp, hpk, hkf⟩
    rw [if_neg hkf, if_neg (not_lt.2 hkl)]
    have hlt : lo < hi := by
      rcases Nat.lt_or_eq_of_le hlo with h | rfl
      · exact h
      · rw [hf] at hl
        obtain rfl := Option.some.inj hl
        exact absurd hkl hkf
    generalize hmid : lo + (hi - lo) / 2 = middle
    obtain ⟨mid, hm⟩ := exists_index (v := v) (i := middle) (by omega) (by omega)
    obtain ⟨before, hb⟩ := exists_index (v := v) (i := middle - 1) (by omega) (by omega)
    simp only [hm, hb, Option.bind_some]
    rw [if_neg (by omega)]
    by_cases hkm : key > mid.hash
    · rw [if_pos hkm]
      exact ih (by omega) (by omega) (by rw [Nat.add_sub_cancel]; exact hm) hkm hl hkl
    rw [if_neg hkm]
    by_cases hkb : key > before.hash
    · rw [if_pos hkb]
      exact ⟨middle - 1, mid, before, rfl, by rw [Nat.sub_add_cancel (by omega)]; exact hm, hb, hkb, not_lt.1 hkm⟩
    · rw [if_neg hkb]
      have : lo < middle := by
        by_contra h
        exact hkf (by
          have := index_mono hs (show middle ≤ lo by omega) hm hf
          omega)
      exact ih (by omega) (by omega) hp hpk hb (not_lt.1 hkb)

/-- From the first node on, it is right unless it comes to the range `1..2`. -/
theorem hashFind_left {fuel hi : Nat} (hfuel : hi - 1 < fuel) {first second last : Node} (hf : index v 1 = some first)
    (h2 : index v 2 = some second) (hfk : first.hash < key) (h2hi : 2 ≤ hi) (hl : index v hi = some last)
    (hkl : key ≤ last.hash) :
    (SlipSize hi ∧ key ≤ second.hash → hashFind v key fuel 1 hi = some first) ∧
      (¬ (SlipSize hi ∧ key ≤ second.hash) → Found v key (hashFind v key fuel 1 hi)) := by
  induction fuel generalizing hi last with
  | zero => omega
  | succ fuel ih =>
    obtain ⟨-, hhi⟩ := index_le_length hl
    simp only [hashFind, hf, hl, Option.bind_eq_bind, Option.bind_some]
    rw [if_neg (not_le.2 hfk), if_neg (not_lt.2 hkl)]
    rcases Nat.lt_or_eq_of_le h2hi with h3 | rfl
    · generalize hmid : 1 + (hi - 1) / 2 = middle
      obtain ⟨mid, hm⟩ := exists_index (v := v) (i := middle) (by omega) (by omega)
      obtain ⟨before, hb⟩ := exists_index (v := v) (i := middle - 1) (by omega) (by omega)
      simp only [hm, hb, Option.bind_some]
      rw [if_neg (by omega)]
      by_cases hkm : key > mid.hash
      · -- the second node lies before the middle
        have hno : ¬ (SlipSize hi ∧ key ≤ second.hash) := fun h => by
          have := index_mono hs (show 2 ≤ middle by omega) h2 hm
          omega
        rw [if_pos hkm]
        exact ⟨fun h => absurd h hno, fun _ => hashFind_right hs (by omega) (by omega)
          (by rw [Nat.add_sub_cancel]; exact hm) hkm hl hkl⟩
      rw [if_neg hkm]
      by_cases hkb : key > before.hash
      · have hno : ¬ (SlipSize hi ∧ key ≤ second.hash) := by
          rintro ⟨hsz, hk2⟩
          by_cases hm2 : middle = 2
          · exact not_slipSize_of_mid (by omega) (by omega) hsz
          · have := index_mono hs (show 2 ≤ middle - 1 by omega) h2 hb
            omega
        rw [if_pos hkb]
        exact ⟨fun h => absurd h hno, fun _ =>
          ⟨middle - 1, mid, before, rfl, by rw [Nat.sub_add_cancel (by omega)]; exact hm, hb, hkb, not_lt.1 hkm⟩⟩
      · rw [if_neg hkb]
        have hm2 : 2 ≤ middle - 1 := by
          by_contra h
          obtain rfl : middle = 2 := by omega
          rw [show 2 - 1 = 1 from rfl, hf] at hb
          obtain rfl := Option.some.inj hb
          exact hkb hfk
        rw [slipSize_half (by omega), show (hi - 1) / 2 = middle - 1 by omega]
        exact ih (by omega) hm2 hb (not_lt.1 hkb)
    · rw [h2] at hl
      obtain rfl := Option.some.inj hl
      simp only [Nat.reduceSub, Nat.reduceDiv, Nat.add_zero, hf, Option.bind_some, if_true]
      exact ⟨fun _ => trivial, fun h => absurd ⟨slipSize_two, hkl⟩ h⟩

end Search

theorem insertIdx_append_length (new old : List Node) (a : Node) :
    (new ++ old).insertIdx new.length a = new ++ [a] ++ old := by
  induction new with
  | nil => rfl
  | cons b new ih => rw [List.length_cons, List.cons_append, List.insertIdx_succ_cons, ih]; rfl

/-- The search over all nodes comes to the range `1..2` with a point behind the first node. -/
def Slips (v : List Node) (key : Nat) : Prop :=
  SlipSize v.length ∧ ∃ a b l, v = a :: b :: l ∧ a.hash < key ∧ key ≤ b.hash

section Table

variable {v : List Node} (hs : v.Pairwise fun a b => a.hash ≤ b.hash) (hne : v ≠ []) (key : Nat)
include hs hne

theorem hashFind_spec :
    (Slips v key → hashFind v key (v.length + 1) 1 v.length = v.head?) ∧
      (¬ Slips v key → hashFind v key (v.length + 1) 1 v.length = owner Node.hash key v) := by
  obtain ⟨first, w, rfl⟩ := List.exists_cons_of_ne_nil hne
  have hf : index (first :: w) 1 = some first := rfl
  obtain ⟨last, hl⟩ := exists_index (v := first :: w) (i := w.length + 1) (by omega) (by simp)
  by_cases hkf : key ≤ first.hash
  · have hno : ¬ Slips (first :: w) key := by
      rintro ⟨-, a, b, l, hv, ha, -⟩
      obtain ⟨rfl, -⟩ := List.cons.inj hv
      omega
    refine ⟨fun h => absurd h hno, fun _ => ?_⟩
    rw [owner_of_le_head (f := Node.hash) rfl hkf, hashFind]
    simp only [hf, Option.bind_eq_bind, Option.bind_some, if_pos hkf]
  by_cases hkl : key > last.hash
  · have hlast : (first :: w).getLast? = some last := by
      rw [List.getLast?_eq_getElem?]
      exact hl
    have hno : ¬ Slips (first :: w) key := by
      rintro ⟨-, a, b, l, hv, -, hb⟩
      have h2 : index (first :: w) 2 = some b := by rw [hv]; rfl
      have := index_mono hs (i := 2) (by obtain ⟨-, h⟩ := index_le_length h2; simpa using h) h2 hl
      omega
    refine ⟨fun h => absurd h hno, fun _ => ?_⟩
    rw [owner_of_lt_getLast (f := Node.hash) hs hlast hkl, List.length_cons, hashFind]
    simp only [hf, hl, Option.bind_eq_bind, Option.bind_some, if_neg hkf, if_pos hkl, List.head?_cons]
  cases w with
  | nil =>
    obtain rfl := Option.some.inj hl
    omega
  | cons second w =>
    have hslip : Slips (first :: second :: w) key ↔
        SlipSize (first :: second :: w).length ∧ key ≤ second.hash := by
      constructor
      · rintro ⟨hsz, a, b, l, hv, -, hb⟩
        obtain ⟨-, hv⟩ := List.cons.inj hv
        obtain ⟨rfl, -⟩ := List.cons.inj hv
        exact ⟨hsz, hb⟩
      · rintro ⟨hsz, hb⟩
        exact ⟨hsz, first, second, w, rfl, not_le.1 hkf, hb⟩
    have hfuel : (first :: second :: w).length - 1 < (first :: second :: w).length + 1 := by omega
    have hsecond : index (first :: second :: w) 2 = some second := rfl
    obtain ⟨h1, h2⟩ := hashFind_left hs hfuel hf hsecond (not_le.1 hkf) (by simp) hl (not_lt.1 hkl)
    refine ⟨fun h => h1 (hslip.1 h), fun h => ?_⟩
    obtain ⟨i, a, b, hr, ha, hb, hbk, hka⟩ := h2 (fun h' => h (hslip.2 h'))
    obtain ⟨i, rfl⟩ : ∃ k, i = k + 1 := ⟨i - 1, by have := (index_le_length hb).1; omega⟩
    rw [hr, owner_of_getElem (f := Node.hash) hs ha hb hbk hka]

theorem exists_hashFind : ∃ a, hashFind v key (v.length + 1) 1 v.length = some a := by
  obtain ⟨h1, h2⟩ := hashFind_spec hs hne key
  by_cases h : Slips v key
  · rw [h1 h, List.head?_eq_some_head hne]
    exact ⟨_, rfl⟩
  · rw [h2 h]
    exact exists_owner hne

omit key

/-- The new buckets come before the old ones. -/
theorem fillBuckets_spec (n : Nat) (new old : List Node)
    (hnew : ∀ i < new.length, new[i]? = hashFind v (slice * i) (v.length + 1) 1 v.length) :
    ∃ all, (fillBuckets v n new.length (new ++ old)) = (all ++ old, true) ∧ all.length = new.length + n ∧
      ∀ i < all.length, all[i]? = hashFind v (slice * i) (v.length + 1) 1 v.length := by
  induction n generalizing new with
  | zero => exact ⟨new, rfl, rfl, hnew⟩
  | succ n ih =>
    obtain ⟨a, ha⟩ := exists_hashFind hs hne (slice * new.length)
    have hins := insertIdx_append_length new old a
    have hnew' : ∀ i < (new ++ [a]).length,
        (new ++ [a])[i]? = hashFind v (slice * i) (v.length + 1) 1 v.length := by
      intro i hi
      rw [List.length_append, List.length_singleton] at hi
      rcases Nat.lt_or_eq_of_le (Nat.le_of_lt_succ hi) with hi | rfl
      · rw [List.getElem?_append_left hi, hnew i hi]
      · rw [List.getElem?_concat_length, ha]
    obtain ⟨all, hall, hlen, hget⟩ := ih (new ++ [a]) hnew'
    refine ⟨all, ?_, by rw [hlen, List.length_append, List.length_singleton]; omega, hget⟩
    rw [fillBuckets, ha]
    simp only [hins]
    rw [List.length_append, List.length_singleton] at hall
    exact hall

end Table

/-! ## The successor -/

/-- The first node at or behind `key`, and the first of all where `key` lies behind every node. -/
inductive Successor (v : List Node) (key : Nat) (a : Node) : Prop
  | behind (pre post : List Node) (hv : v = pre ++ a :: post) (hpre : ∀ b ∈ pre, b.hash < key) (ha : key ≤ a.hash)
  | wrap (post : List Node) (hv : v = a :: post) (hall : ∀ b ∈ v, b.hash < key)

theorem successor_iff {v : List Node} {key : Nat} {a : Node} : Successor v key a ↔ owner Node.hash key v = some a := by
  cases hf : v.find? (fun a => key ≤ a.hash) with
  | some c =>
    obtain ⟨hc, pre, post, rfl, hpre⟩ := List.find?_eq_some_iff_append.1 hf
    simp only [decide_eq_true_eq] at hc
    have hpre' : ∀ b ∈ pre, b.hash < key := fun b hb => by simpa using hpre b hb
    rw [owner, hf, Option.some_or, Option.some.injEq]
    constructor
    · intro h
      cases h with
      | behind pre' post' hv hlt ha =>
        have hfind : (pre ++ c :: post).find? (fun a => key ≤ a.hash) = some a := by
          rw [hv]
          refine List.find?_eq_some_iff_append.2 ⟨by simpa using ha, pre', post', rfl, fun b hb => ?_⟩
          simpa using hlt b hb
        exact Option.some.inj (hf.symm.trans hfind)
      | wrap post' hv hall =>
        have := hall c (by simp)
        omega
    · rintro rfl
      exact .behind pre post rfl hpre' hc
  | none =>
    have hall : ∀ b ∈ v, b.hash < key := fun b hb => by simpa using List.find?_eq_none.1 hf b hb
    rw [owner, hf, Option.none_or, List.head?_eq_some_iff]
    constructor
    · intro h
      cases h with
      | behind pre post hv hlt ha =>
        have := hall a (by simp [hv])
        omega
      | wrap post hv _ => exact ⟨post, hv⟩
    · rintro ⟨post, hv⟩
      exact .wrap post hv hall

/-- More calls than are needed change nothing. -/
theorem hashFind_mono {v : List Node} {key : Nat} {a : Node} {fuel fuel' lo hi : Nat} (hf : fuel ≤ fuel')
    (h : hashFind v key fuel lo hi = some a) : hashFind v key fuel' lo hi = some a := by
  induction fuel generalizing fuel' lo hi with
  | zero => cases h
  | succ fuel ih =>
    obtain ⟨fuel', rfl⟩ : ∃ k, fuel' = k + 1 := ⟨fuel' - 1, by omega⟩
    have ih' : ∀ {lo hi}, hashFind v key fuel lo hi = some a → hashFind v key fuel' lo hi = some a := ih (by omega)
    simp only [hashFind, Option.bind_eq_bind, Option.bind_eq_some_iff] at h ⊢
    obtain ⟨first, hfirst, h⟩ := h
    refine ⟨first, hfirst, ?_⟩
    by_cases hk : key ≤ first.hash
    · rwa [if_pos hk] at h ⊢
    rw [if_neg hk, Option.bind_eq_some_iff] at h ⊢
    obtain ⟨last, hlast, h⟩ := h
    refine ⟨last, hlast, ?_⟩
    by_cases hkl : key > last.hash
    · rwa [if_pos hkl] at h ⊢
    rw [if_neg hkl, Option.bind_eq_some_iff] at h ⊢
    obtain ⟨mid, hmid, h⟩ := h
    refine ⟨mid, hmid, ?_⟩
    by_cases h1 : lo + (hi - lo) / 2 = 1
    · rwa [if_pos h1] at h ⊢
    rw [if_neg h1] at h ⊢
    by_cases hkm : key > mid.hash
    · rw [if_pos hkm] at h ⊢
      exact ih' h
    rw [if_neg hkm, Option.bind_eq_some_iff] at h ⊢
    obtain ⟨before, hbefore, h⟩ := h
    refine ⟨before, hbefore, ?_⟩
    by_cases hkb : key > before.hash
    · rwa [if_pos hkb] at h ⊢
    · rw [if_neg hkb] at h ⊢
      exact ih' h

/-- **The search ends, at a node of the list, and takes the successor exactly where it does not slip.** -/
theorem hash_find_successor {v : List Node} (hs : v.Pairwise fun a b => a.hash < b.hash) (hne : v ≠ []) (key : Nat) :
    ∃ a, (∀ fuel, v.length < fuel → hashFind v key fuel 1 v.length = some a) ∧ (Successor v key a ↔ ¬ Slips v key) := by
  have hle : v.Pairwise fun a b => a.hash ≤ b.hash := hs.imp fun h => le_of_lt h
  obtain ⟨hslip, hright⟩ := hashFind_spec hle hne key
  obtain ⟨a, ha⟩ := exists_hashFind hle hne key
  refine ⟨a, fun fuel hfuel => hashFind_mono hfuel ha, ?_⟩
  rw [successor_iff]
  constructor
  · intro hown h
    have hhead := hslip h
    rw [ha] at hhead
    obtain ⟨-, b, c, l, rfl, hb, hc⟩ := h
    -- The second node is the successor then, and the first one is the answer.
    have hab : a = b := Option.some.inj hhead
    have hsecond : owner Node.hash key (b :: c :: l) = some c :=
      owner_of_getElem hle (show (b :: c :: l)[0 + 1]? = some c from rfl) rfl hb hc
    rw [hown, Option.some.injEq] at hsecond
    rw [← hab, hsecond] at hb
    omega
  · intro h
    rw [← hright h, ha]

theorem hash_find_successor_three :
    hashFind [⟨[0x61], 5⟩, ⟨[0x62], 10⟩, ⟨[0x63], 15⟩] 7 4 1 3 = some ⟨[0x62], 10⟩ ∧
      Successor [⟨[0x61], 5⟩, ⟨[0x62], 10⟩, ⟨[0x63], 15⟩] 7 ⟨[0x62], 10⟩ := by
  obtain ⟨a, ha, hsucc⟩ := hash_find_successor (v := [⟨[0x61], 5⟩, ⟨[0x62], 10⟩, ⟨[0x63], 15⟩]) (by decide) (by decide) 7
  have hfind : hashFind [⟨[0x61], 5⟩, ⟨[0x62], 10⟩, ⟨[0x63], 15⟩] 7 4 1 3 = some ⟨[0x62], 10⟩ := by decide
  obtain rfl : a = ⟨[0x62], 10⟩ := Option.some.inj ((ha 4 (by decide)).symm.trans hfind)
  exact ⟨hfind, hsucc.2 fun h => not_slipSize_of_mid (by decide) (by decide) h.1⟩

/-- The point 7 lies between the two nodes and goes to the first. -/
theorem two_nodes_slip :
    hashFind [⟨[0x61], 5⟩, ⟨[0x62], 10⟩] 7 3 1 2 = some ⟨[0x61], 5⟩ ∧
      ¬ Successor [⟨[0x61], 5⟩, ⟨[0x62], 10⟩] 7 ⟨[0x61], 5⟩ := by
  refine ⟨by decide, fun h => ?_⟩
  rw [successor_iff] at h
  exact absurd h (by decide)

/-! ## What a history leaves -/

section History

variable (crc32 : Bytes → Nat)

/-- The virtual nodes of servers, sorted. -/
def ring (servers : List Bytes) : List Node := sortNodes (servers.flatMap (virtualNodes crc32))

/-- No two virtual nodes of these servers have the same hash. -/
def NoCollisions (servers : List Bytes) : Prop :=
  ∀ v ∈ servers, ∀ w ∈ servers, ∀ m < virtualCount, ∀ n < virtualCount,
    crc32 (hashKey v m) = crc32 (hashKey w n) → v = w ∧ m = n

/-- The point that a key's bucket stands for. -/
def position (key : Bytes) : Nat := slice * (crc32 key % consistentBuckets)

variable {crc32}

theorem mem_nodes {servers : List Bytes} {a : Node} :
    a ∈ servers.flatMap (virtualNodes crc32) ↔
      a.server ∈ servers ∧ ∃ n < virtualCount, a.hash = crc32 (hashKey a.server n) := by
  rw [List.mem_flatMap]
  constructor
  · rintro ⟨v, hv, ha⟩
    obtain ⟨n, hn, rfl⟩ := List.mem_map.1 ha
    exact ⟨hv, n, List.mem_range.1 hn, rfl⟩
  · rintro ⟨hv, n, hn, hh⟩
    exact ⟨a.server, hv, List.mem_map.2 ⟨n, List.mem_range.2 hn, by rw [← hh]⟩⟩

theorem mem_sortNodes {v : List Node} {a : Node} : a ∈ sortNodes v ↔ a ∈ v := List.mem_insertionSort _

theorem sorted_sortNodes (v : List Node) : (sortNodes v).Pairwise fun a b => a.hash ≤ b.hash :=
  haveI : Std.Total fun a b : Node => a.hash ≤ b.hash := ⟨fun a b => le_total a.hash b.hash⟩
  haveI : IsTrans Node fun a b => a.hash ≤ b.hash := ⟨fun _ _ _ => le_trans⟩
  List.pairwise_insertionSort _ v

theorem mem_ring {servers : List Bytes} {a : Node} :
    a ∈ ring crc32 servers ↔ a.server ∈ servers ∧ ∃ n < virtualCount, a.hash = crc32 (hashKey a.server n) := by
  rw [ring, mem_sortNodes, mem_nodes]

theorem ring_ne_nil (crc32 : Bytes → Nat) {servers : List Bytes} (h : servers ≠ []) : ring crc32 servers ≠ [] := by
  obtain ⟨v, l, rfl⟩ := List.exists_cons_of_ne_nil h
  have : (⟨v, crc32 (hashKey v 0)⟩ : Node) ∈ ring crc32 (v :: l) :=
    mem_ring.2 ⟨List.mem_cons_self, 0, by decide, rfl⟩
  exact List.ne_nil_of_mem this

theorem NoCollisions.subset {s t : List Bytes} (h : NoCollisions crc32 s) (hts : ∀ v ∈ t, v ∈ s) : NoCollisions crc32 t :=
  fun v hv w hw => h v (hts v hv) w (hts w hw)

theorem NoCollisions.node_eq {servers : List Bytes} (h : NoCollisions crc32 servers) {a b : Node}
    (ha : a ∈ ring crc32 servers) (hb : b ∈ ring crc32 servers) (hab : a.hash = b.hash) : a = b := by
  obtain ⟨hav, m, hm, ham⟩ := mem_ring.1 ha
  obtain ⟨hbv, n, hn, hbn⟩ := mem_ring.1 hb
  obtain ⟨hs, -⟩ := h _ hav _ hbv m hm n hn (by rw [← ham, ← hbn, hab])
  cases a
  cases b
  simp_all

/-- More servers are sorted in among those that are there. -/
theorem sortNodes_ring {servers more : List Bytes} (h : NoCollisions crc32 (servers ++ more)) :
    sortNodes (ring crc32 servers ++ more.flatMap (virtualNodes crc32)) = ring crc32 (servers ++ more) := by
  have hp : (sortNodes (ring crc32 servers ++ more.flatMap (virtualNodes crc32))).Perm (ring crc32 (servers ++ more)) := by
    refine (List.perm_insertionSort ..).trans ((((List.perm_insertionSort ..).append_right _).trans ?_).trans
      (List.perm_insertionSort ..).symm)
    rw [List.flatMap_append]
  refine hp.eq_of_pairwise (fun a b ha hb hab hba => ?_) (sorted_sortNodes _) (sorted_sortNodes _)
  exact h.node_eq (hp.mem_iff.1 ha) hb (le_antisymm hab hba)

/-- The object after some servers were added. -/
structure Built (crc32 : Bytes → Nat) (servers : List Bytes) (obj : Ups) : Prop where
  virtualNode : obj.virtualNode = ring crc32 servers
  empty : servers = [] → obj.buckets = []
  buckets : servers ≠ [] → ∀ i < consistentBuckets, obj.buckets[i]? =
    hashFind (ring crc32 servers) (slice * i) ((ring crc32 servers).length + 1) 1 (ring crc32 servers).length

theorem Built.addServer {servers more : List Bytes} {obj : Ups} (h : Built crc32 servers obj)
    (hnc : NoCollisions crc32 (servers ++ more)) {g : Cache} {upsName : Bytes} (hg : g upsName = some obj) :
    ∃ obj', (addServer crc32 g upsName more).1 upsName = some obj' ∧ Built crc32 (servers ++ more) obj' := by
  have hobj : getUpsObj g upsName = (obj, g) := by rw [getUpsObj, hg]
  refine ⟨_, by simp only [Chash.addServer, hobj, h.virtualNode, sortNodes_ring hnc, Function.update_self]; rfl,
    rfl, fun hnil => ?_, fun hne => ?_⟩
  · -- The search of no nodes raises, before any bucket is made.
    obtain ⟨rfl, rfl⟩ := List.append_eq_nil_iff.1 hnil
    exact h.empty rfl
  · obtain ⟨all, hall, hlen, hget⟩ := fillBuckets_spec (sorted_sortNodes _)
      (ring_ne_nil crc32 hne) consistentBuckets [] obj.buckets (by simp)
    intro i hi
    rw [List.length_nil, List.nil_append] at hall
    change (fillBuckets (ring crc32 (servers ++ more)) consistentBuckets 0 obj.buckets).1[i]? = _
    rw [ring, hall]
    rw [List.length_nil, Nat.zero_add] at hlen
    rw [List.getElem?_append_left (by omega), hget i (by omega)]

theorem build_spec (upsName : Bytes) (g : Cache) {calls : List (List Bytes)} (hnc : NoCollisions crc32 calls.flatten) :
    ∃ obj, build crc32 upsName g calls upsName = some obj ∧ Built crc32 calls.flatten obj := by
  induction calls using List.reverseRecOn with
  | nil =>
    exact ⟨⟨[], []⟩, Function.update_self .., rfl, fun _ => rfl, fun h => absurd rfl h⟩
  | append_singleton calls c ih =>
    rw [List.flatten_append, List.flatten_singleton] at hnc ⊢
    obtain ⟨obj, hg, hb⟩ := ih (hnc.subset fun v hv => List.mem_append_left _ hv)
    rw [build, List.foldl_append]
    exact hb.addServer hnc hg

/-- The answer for a key after `clean_upstream` and some calls of `add_server`. -/
def answer (crc32 : Bytes → Nat) (upsName : Bytes) (g : Cache) (calls : List (List Bytes)) (key : Bytes) : Option Bytes :=
  (getUpstream crc32 (build crc32 upsName g calls) upsName key).1

/-- The server of the lowest virtual node. -/
def lowest (crc32 : Bytes → Nat) (servers : List Bytes) : Option Bytes := (ring crc32 servers).head?.map Node.server

/-- The server of the first virtual node at or behind the key's point. -/
def ownerOf (crc32 : Bytes → Nat) (servers : List Bytes) (key : Bytes) : Option Bytes :=
  (owner Node.hash (position crc32 key) (ring crc32 servers)).map Node.server

/-- The search for the key's point slips. -/
def SlipsAt (crc32 : Bytes → Nat) (servers : List Bytes) (key : Bytes) : Prop :=
  Slips (ring crc32 servers) (position crc32 key)

theorem answer_spec (upsName : Bytes) (g : Cache) (calls : List (List Bytes)) (hnc : NoCollisions crc32 calls.flatten)
    (hne : calls.flatten ≠ []) (key : Bytes) :
    (SlipsAt crc32 calls.flatten key → answer crc32 upsName g calls key = lowest crc32 calls.flatten) ∧
      (¬ SlipsAt crc32 calls.flatten key → answer crc32 upsName g calls key = ownerOf crc32 calls.flatten key) := by
  obtain ⟨obj, hobj, hb⟩ := build_spec upsName g hnc
  have hmod : crc32 key % consistentBuckets < consistentBuckets := Nat.mod_lt _ (by decide)
  have hget := hb.buckets hne _ hmod
  obtain ⟨a, ha⟩ := exists_hashFind (sorted_sortNodes _) (ring_ne_nil crc32 hne) (position crc32 key)
  have hanswer : answer crc32 upsName g calls key =
      (hashFind (ring crc32 calls.flatten) (position crc32 key) ((ring crc32 calls.flatten).length + 1) 1
        (ring crc32 calls.flatten).length).map Node.server := by
    have hlen : obj.buckets.length ≠ 0 := by
      intro h0
      rw [List.length_eq_zero_iff.1 h0, List.getElem?_nil] at hget
      exact absurd (hget.trans ha) (by simp)
    simp only [answer, getUpstream, getUpsObj, hobj, getUpstreamObj, if_neg hlen, hget, position]
  obtain ⟨h1, h2⟩ := hashFind_spec (sorted_sortNodes _) (ring_ne_nil crc32 hne) (position crc32 key)
  exact ⟨fun h => by rw [hanswer]; exact congrArg _ (h1 h), fun h => by rw [hanswer]; exact congrArg _ (h2 h)⟩

/-! ## Taking a server away -/

section Remove

variable {s t : List Bytes} (hnc : NoCollisions crc32 s) (hts : ∀ v ∈ t, v ∈ s)
include hts

theorem ring_subset : {a | a ∈ ring crc32 t} ⊆ {a | a ∈ ring crc32 s} := by
  intro a ha
  obtain ⟨hv, hn⟩ := mem_ring.1 ha
  exact mem_ring.2 ⟨hts _ hv, hn⟩

include hnc

theorem server_eq_of_hash_eq {a b : Node} (ha : a ∈ ring crc32 t) (hb : b ∈ ring crc32 t) (hab : a.hash = b.hash) :
    a.server = b.server :=
  congrArg Node.server ((hnc.subset hts).node_eq ha hb hab)

/-- An owner that stays keeps its keys. -/
theorem ownerOf_subset {v : Bytes} {key : Bytes} (h : ownerOf crc32 s key = some v) (hv : v ∈ t) :
    ownerOf crc32 t key = some v := by
  obtain ⟨a, ha, rfl⟩ := Option.map_eq_some_iff.1 h
  have hown := isOwner_owner (sorted_sortNodes _) ha
  have hat : a ∈ ring crc32 t := mem_ring.2 ⟨hv, (mem_ring.1 hown.mem).2⟩
  obtain ⟨b, hb⟩ := exists_owner (f := Node.hash) (x := position crc32 key)
    (ring_ne_nil crc32 (List.ne_nil_of_mem hv))
  have hbown := isOwner_owner (sorted_sortNodes _) hb
  have hplace := (hown.subset (ring_subset hts) hat).place_eq hbown
  rw [ownerOf, hb, Option.map_some, server_eq_of_hash_eq hnc hts hat hbown.mem hplace]

theorem lowest_subset {v : Bytes} (h : lowest crc32 s = some v) (hv : v ∈ t) : lowest crc32 t = some v := by
  obtain ⟨a, ha, rfl⟩ := Option.map_eq_some_iff.1 h
  have hfirst := isFirst_head (f := Node.hash) (sorted_sortNodes _) ha
  have hat : a ∈ ring crc32 t := mem_ring.2 ⟨hv, (mem_ring.1 hfirst.1).2⟩
  have hne := ring_ne_nil crc32 (List.ne_nil_of_mem hv)
  have hbfirst := isFirst_head (f := Node.hash) (sorted_sortNodes _) (List.head?_eq_some_head hne)
  have hplace := (hfirst.subset (ring_subset hts) hat).place_eq hbfirst
  rw [lowest, List.head?_eq_some_head hne, Option.map_some, server_eq_of_hash_eq hnc hts hat hbfirst.1 hplace]

end Remove

theorem exists_ownerOf (crc32 : Bytes → Nat) {servers : List Bytes} (hne : servers ≠ []) (key : Bytes) :
    ∃ v ∈ servers, ownerOf crc32 servers key = some v := by
  obtain ⟨a, ha⟩ := exists_owner (f := Node.hash) (x := position crc32 key) (ring_ne_nil crc32 hne)
  exact ⟨a.server, (mem_ring.1 (isOwner_owner (sorted_sortNodes _) ha).mem).1, by rw [ownerOf, ha]; rfl⟩

theorem exists_lowest (crc32 : Bytes → Nat) {servers : List Bytes} (hne : servers ≠ []) :
    ∃ v ∈ servers, lowest crc32 servers = some v := by
  have hr := ring_ne_nil crc32 hne
  exact ⟨((ring crc32 servers).head hr).server, (mem_ring.1 (List.head_mem hr)).1, by
    rw [lowest, List.head?_eq_some_head hr]; rfl⟩

/-- The first law, on the answers. -/
theorem removal_iff (upsName : Bytes) (g g' : Cache) {calls calls' : List (List Bytes)} {s : Bytes}
    (hnc : NoCollisions crc32 calls.flatten) (hs : s ∈ calls.flatten)
    (hrem : ∀ v, v ∈ calls'.flatten ↔ v ∈ calls.flatten ∧ v ≠ s) (hne : calls'.flatten ≠ []) (key : Bytes) :
    (answer crc32 upsName g calls key ≠ some s →
        answer crc32 upsName g' calls' key = answer crc32 upsName g calls key) ↔
      (SlipsAt crc32 calls.flatten key ↔ SlipsAt crc32 calls'.flatten key) ∨
        SlipsAt crc32 calls.flatten key ∧
          (lowest crc32 calls.flatten = some s ∨ ownerOf crc32 calls'.flatten key = lowest crc32 calls.flatten) ∨
        SlipsAt crc32 calls'.flatten key ∧
          (ownerOf crc32 calls.flatten key = some s ∨ lowest crc32 calls'.flatten = ownerOf crc32 calls.flatten key) := by
  have hsub : ∀ v ∈ calls'.flatten, v ∈ calls.flatten := fun v hv => ((hrem v).1 hv).1
  have hcalls : calls.flatten ≠ [] := List.ne_nil_of_mem hs
  obtain ⟨h1, h2⟩ := answer_spec upsName g calls hnc hcalls key
  obtain ⟨h1', h2'⟩ := answer_spec upsName g' calls' (hnc.subset hsub) hne key
  -- The two places where nothing moves.
  have hown : ownerOf crc32 calls.flatten key ≠ some s →
      ownerOf crc32 calls'.flatten key = ownerOf crc32 calls.flatten key := by
    intro h
    obtain ⟨v, hv, he⟩ := exists_ownerOf crc32 hcalls key
    rw [he] at h
    rw [he, ownerOf_subset hnc hsub he ((hrem v).2 ⟨hv, fun e => h (by rw [e])⟩)]
  have hlow : lowest crc32 calls.flatten ≠ some s → lowest crc32 calls'.flatten = lowest crc32 calls.flatten := by
    intro h
    obtain ⟨v, hv, he⟩ := exists_lowest crc32 hcalls
    rw [he] at h
    rw [he, lowest_subset hnc hsub he ((hrem v).2 ⟨hv, fun e => h (by rw [e])⟩)]
  by_cases hA : SlipsAt crc32 calls.flatten key <;> by_cases hB : SlipsAt crc32 calls'.flatten key
  · rw [h1 hA, h1' hB]
    exact ⟨fun _ => Or.inl ⟨fun _ => hB, fun _ => hA⟩, fun _ => hlow⟩
  · rw [h1 hA, h2' hB]
    simp only [hA, hB, true_iff, false_and, or_false, false_or, true_and]
    exact or_iff_not_imp_left.symm
  · rw [h2 hA, h1' hB]
    simp only [hA, hB, iff_true, false_and, false_or, true_and]
    exact or_iff_not_imp_left.symm
  · rw [h2 hA, h2' hB]
    exact ⟨fun _ => Or.inl ⟨fun h => absurd h hA, fun h => absurd h hB⟩, fun _ => hown⟩

/-- The second law, on the answers. -/
theorem order_iff (upsName : Bytes) (g g' : Cache) {calls calls' : List (List Bytes)}
    (hnc : NoCollisions crc32 calls.flatten) (hne : calls.flatten ≠ [])
    (hsame : ∀ v, v ∈ calls'.flatten ↔ v ∈ calls.flatten) (key : Bytes) :
    answer crc32 upsName g' calls' key = answer crc32 upsName g calls key ↔
      (SlipsAt crc32 calls.flatten key ↔ SlipsAt crc32 calls'.flatten key) ∨
        lowest crc32 calls.flatten = ownerOf crc32 calls.flatten key := by
  have hsub : ∀ v ∈ calls'.flatten, v ∈ calls.flatten := fun v hv => (hsame v).1 hv
  obtain ⟨v, hv, hown⟩ := exists_ownerOf crc32 hne key
  obtain ⟨w, hw, hlow⟩ := exists_lowest crc32 hne
  have hne' : calls'.flatten ≠ [] := List.ne_nil_of_mem ((hsame v).2 hv)
  have hown' := ownerOf_subset hnc hsub hown ((hsame v).2 hv)
  have hlow' := lowest_subset hnc hsub hlow ((hsame w).2 hw)
  obtain ⟨h1, h2⟩ := answer_spec upsName g calls hnc hne key
  obtain ⟨h1', h2'⟩ := answer_spec upsName g' calls' (hnc.subset hsub) hne' key
  rw [hown, hlow] at *
  by_cases hA : SlipsAt crc32 calls.flatten key <;> by_cases hB : SlipsAt crc32 calls'.flatten key
  · rw [h1 hA, h1' hB, hlow']
    exact ⟨fun _ => Or.inl ⟨fun _ => hB, fun _ => hA⟩, fun _ => rfl⟩
  · rw [h1 hA, h2' hB, hown']
    simp only [hA, hB, true_iff, false_or]
    exact eq_comm
  · rw [h2 hA, h1' hB, hlow']
    simp only [hA, hB, iff_true, false_or]
  · rw [h2 hA, h2' hB, hown']
    exact ⟨fun _ => Or.inl ⟨fun h => absurd h hA, fun h => absurd h hB⟩, fun _ => rfl⟩

/-- **Consistent hashing.** Only the keys of the server that is taken away move, and the answer
depends on the set of servers alone, up to what the slip of the search does. -/
theorem only_removed_keys_move (upsName : Bytes) (g g' : Cache) {calls : List (List Bytes)}
    (hnc : NoCollisions crc32 calls.flatten) (hne : calls.flatten ≠ []) (key : Bytes) :
    (∀ s ∈ calls.flatten, ∀ calls' : List (List Bytes), calls'.flatten ≠ [] →
      (∀ v, v ∈ calls'.flatten ↔ v ∈ calls.flatten ∧ v ≠ s) →
      ((answer crc32 upsName g calls key ≠ some s →
          answer crc32 upsName g' calls' key = answer crc32 upsName g calls key) ↔
        (SlipsAt crc32 calls.flatten key ↔ SlipsAt crc32 calls'.flatten key) ∨
          SlipsAt crc32 calls.flatten key ∧
            (lowest crc32 calls.flatten = some s ∨ ownerOf crc32 calls'.flatten key = lowest crc32 calls.flatten) ∨
          SlipsAt crc32 calls'.flatten key ∧
            (ownerOf crc32 calls.flatten key = some s ∨
              lowest crc32 calls'.flatten = ownerOf crc32 calls.flatten key))) ∧
      ∀ calls' : List (List Bytes), (∀ v, v ∈ calls'.flatten ↔ v ∈ calls.flatten) →
        (answer crc32 upsName g' calls' key = answer crc32 upsName g calls key ↔
          (SlipsAt crc32 calls.flatten key ↔ SlipsAt crc32 calls'.flatten key) ∨
            lowest crc32 calls.flatten = ownerOf crc32 calls.flatten key) :=
  ⟨fun _ hs _ hne' hrem => removal_iff upsName g g' hnc hs hrem hne' key,
    fun _ hsame => order_iff upsName g g' hnc hne hsame key⟩

end History

/-- A hash that spreads the virtual nodes of one-letter servers evenly. -/
def spread : Bytes → Nat
  | v :: 0x2d :: digits => digits.foldl (fun n c => 10 * n + (c.toNat - 48)) 0 * 20000000 + (v.toNat - 97) * 6000000 + 5
  | bs => bs.length

theorem spread_hashKey : ∀ v ∈ [0x61, 0x62, 0x63], ∀ n < virtualCount,
    spread (hashKey [v] n) = n * 20000000 + (v.toNat - 97) * 6000000 + 5 := by
  decide +kernel

theorem noCollisions_spread : NoCollisions spread [[0x61], [0x62], [0x63]] := by
  have hletter : ∀ v ∈ [[0x61], [0x62], [(0x63 : UInt8)]], ∃ a ∈ [0x61, 0x62, (0x63 : UInt8)], v = [a] := by decide
  have hrange : ∀ a ∈ [0x61, 0x62, (0x63 : UInt8)], 97 ≤ a.toNat ∧ a.toNat ≤ 99 := by
    simp only [List.forall_mem_cons]
    refine ⟨⟨?_, ?_⟩, ⟨?_, ?_⟩, ⟨?_, ?_⟩, ?_⟩ <;> simp
  intro v hv w hw m hm n hn h
  obtain ⟨a, ha, rfl⟩ := hletter v hv
  obtain ⟨b, hb, rfl⟩ := hletter w hw
  rw [spread_hashKey a ha m hm, spread_hashKey b hb n hn] at h
  have hra := hrange a ha
  have hrb := hrange b hb
  have hab : a.toNat = b.toNat := by omega
  exact ⟨by rw [UInt8.toNat_inj.1 hab], by omega⟩

theorem length_ring (crc32 : Bytes → Nat) (servers : List Bytes) :
    (ring crc32 servers).length = servers.length * virtualCount := by
  rw [ring, sortNodes, List.length_insertionSort, List.length_flatMap]
  simp [virtualNodes]

/-- Between two powers. -/
theorem not_slipSize {n k : Nat} (h1 : 4 * 2 ^ k ≤ n + 1) (h2 : n + 1 < 6 * 2 ^ k) : ¬ SlipSize n := by
  rintro ⟨j, h3, h4⟩
  rcases Nat.lt_or_ge k j with hj | hj
  · have : 2 ^ (k + 1) ≤ 2 ^ j := Nat.pow_le_pow_right (by decide) hj
    rw [pow_succ] at this
    omega
  · have : 2 ^ j ≤ 2 ^ k := Nat.pow_le_pow_right (by decide) hj
    omega

theorem not_slipsAt {crc32 : Bytes → Nat} {servers : List Bytes} {k : Nat}
    (h1 : 4 * 2 ^ k ≤ servers.length * virtualCount + 1) (h2 : servers.length * virtualCount + 1 < 6 * 2 ^ k) (key : Bytes) :
    ¬ SlipsAt crc32 servers key := by
  rintro ⟨h, -⟩
  rw [length_ring] at h
  exact not_slipSize h1 h2 h

theorem only_removed_keys_move_two :
    (answer spread [] (fun _ => none) [[[0x61], [0x62]]] [0x6b] ≠ some [0x62] →
        answer spread [] (fun _ => none) [[[0x61]]] [0x6b] =
          answer spread [] (fun _ => none) [[[0x61], [0x62]]] [0x6b]) ∧
      answer spread [] (fun _ => none) [[[0x62]], [[0x61]]] [0x6b] =
        answer spread [] (fun _ => none) [[[0x61], [0x62]]] [0x6b] := by
  have hnc : NoCollisions spread [[[0x61], [0x62]]].flatten := noCollisions_spread.subset (by decide)
  obtain ⟨h1, h2⟩ := only_removed_keys_move [] (fun _ => none) (fun _ => none) hnc (by decide) [0x6b]
  have htwo : ∀ servers : List Bytes, servers.length = 2 → ¬ SlipsAt spread servers [0x6b] := fun servers h =>
    not_slipsAt (k := 6) (by rw [h]; decide) (by rw [h]; decide) _
  have hone : ¬ SlipsAt spread [[0x61]] [0x6b] := not_slipsAt (k := 5) (by decide) (by decide) _
  refine ⟨(h1 [0x62] (by decide) [[[0x61]]] (by decide) (fun v => ?_)).2 (Or.inl ?_),
    (h2 [[[0x62]], [[0x61]]] (fun v => ?_)).2 (Or.inl ?_)⟩
  · simp only [List.flatten_cons, List.flatten_nil, List.append_nil, List.mem_cons, List.not_mem_nil, or_false]
    constructor
    · rintro rfl
      decide
    · rintro ⟨rfl | rfl, hne⟩
      · rfl
      · exact absurd rfl hne
  · exact ⟨fun h => absurd h (htwo _ rfl), fun h => absurd h hone⟩
  · simp only [List.flatten_cons, List.flatten_nil, List.append_nil, List.mem_cons, List.not_mem_nil, or_false,
      List.mem_append]
    exact or_comm
  · exact ⟨fun h => absurd h (htwo _ rfl), fun h => absurd h (htwo _ rfl)⟩

/-- Three servers: the point 4194303 of the key lies between `a`'s lowest node and `b`'s, and goes
to `a`. Without `c` it goes to `b`. -/
theorem three_servers_slip :
    NoCollisions spread [[0x61], [0x62], [0x63]] ∧
      ¬ (answer spread [] (fun _ => none) [[[0x61], [0x62], [0x63]]] [0x6b] ≠ some [0x63] →
        answer spread [] (fun _ => none) [[[0x61], [0x62]]] [0x6b] =
          answer spread [] (fun _ => none) [[[0x61], [0x62], [0x63]]] [0x6b]) := by
  have h3 : (ring spread [[0x61], [0x62], [0x63]]).take 2 = [⟨[0x61], 5⟩, ⟨[0x62], 6000005⟩] := by decide +kernel
  have hsplit := List.take_append_drop 2 (ring spread [[0x61], [0x62], [0x63]])
  rw [h3] at hsplit
  have hslip : SlipsAt spread [[0x61], [0x62], [0x63]] [0x6b] :=
    ⟨⟨7, by rw [length_ring]; decide, by rw [length_ring]; decide⟩, _, _, _, hsplit.symm, by decide, by decide⟩
  have hlow : lowest spread [[0x61], [0x62], [0x63]] = some [0x61] := by rw [lowest, ← hsplit]; rfl
  have hown : ownerOf spread [[0x61], [0x62]] [0x6b] = some [0x62] := by decide +kernel
  have hnc := noCollisions_spread
  have hbefore := (answer_spec [] (fun _ => none) [[[0x61], [0x62], [0x63]]] hnc (by decide) [0x6b]).1 hslip
  have hafter := (answer_spec [] (fun _ => none) [[[0x61], [0x62]]] (hnc.subset (by decide)) (by decide)
    [0x6b]).2 (not_slipsAt (k := 6) (by decide) (by decide) _)
  refine ⟨hnc, fun h => ?_⟩
  change _ = lowest spread [[0x61], [0x62], [0x63]] at hbefore
  change _ = ownerOf spread [[0x61], [0x62]] [0x6b] at hafter
  rw [hbefore, hafter, hlow, hown] at h
  exact absurd (h (by decide)) (by decide)

end NgxPlus.Chash
