import NgxPlus.Lib.AssocList
import NgxPlus.Mqtt.ShdictInv

/-!
# The newest offset

| here | there |
| --- | --- |
| `luaAccepts`  | the comparison of `process_subscribe_handler` (`mqtt_notify_2worker_module.lua:50-54`) |
| `CacheObj`, `cacheL1Step` | `cacheL1` and one round of the draining loop, for a decoded entry (`:43-54`) |
| `cAccepts`    | the comparison of `ngx_mqtt_shdict_update_offset`, on offsets (`acceptsOffset_bytes`) |

Both keep the newer of two offsets: a smaller one wins when it is in the first third of the
ring and the stored one in the last, else the larger one. A larger offset always wins, also
one from before the wrap that comes late: `newest_offset_wins` says when the newest is kept.
-/

namespace NgxPlus.Mqtt

open ByteMem Rbtree Trace

/-! ## Keeping one of many -/

/-- Keep the value there is unless the new one is accepted over it. -/
def keep (acc : Nat → Nat → Bool) : Option Nat → Nat → Option Nat
  | none, x => some x
  | some o, x => some (if acc o x then x else o)

section

variable {acc : Nat → Nat → Bool} {n : Nat}

theorem foldl_keep_mem {l : List Nat} {o v : Nat} (h : l.foldl (keep acc) (some o) = some v) : v = o ∨ v ∈ l := by
  induction l generalizing o with
  | nil => exact Or.inl (Option.some.inj h).symm
  | cons x l ih =>
    rw [List.foldl_cons, keep] at h
    rcases ih h with hv | hv
    · split at hv
      · exact Or.inr (by simp [hv])
      · exact Or.inl hv
    · exact Or.inr (List.mem_cons_of_mem _ hv)

theorem foldl_keep_isSome (acc : Nat → Nat → Bool) (l : List Nat) (o : Nat) : ∃ v, l.foldl (keep acc) (some o) = some v := by
  induction l generalizing o with
  | nil => exact ⟨o, rfl⟩
  | cons x l ih => exact ih _

theorem foldl_keep_of_forall {l : List Nat} (h : ∀ x ∈ l, acc n x = false) :
    l.foldl (keep acc) (some n) = some n := by
  induction l with
  | nil => rfl
  | cons x l ih =>
    rw [List.foldl_cons, keep, h x List.mem_cons_self]
    exact ih fun y hy => h y (List.mem_cons_of_mem _ hy)

/-- What was replaced does not come back by itself. -/
theorem forall_of_foldl_keep {l : List Nat} (hn : n ∉ l) (h : l.foldl (keep acc) (some n) = some n) :
    ∀ x ∈ l, acc n x = false := by
  induction l with
  | nil => simp
  | cons x l ih =>
    simp only [List.mem_cons, not_or] at hn
    rw [List.foldl_cons, keep] at h
    cases ha : acc n x with
    | false =>
      rw [ha] at h
      intro y hy
      rcases List.mem_cons.1 hy with rfl | hy
      · exact ha
      · exact ih hn.2 h y hy
    | true =>
      rw [ha] at h
      rcases foldl_keep_mem h with h' | h'
      · exact absurd h' hn.1
      · exact absurd h' hn.2

/-- A delivery of `n` is kept where `n` is accepted over every other value. -/
theorem foldl_keep_concat {as : List Nat} (hacc : ∀ v ∈ as, v ≠ n → acc v n = true) :
    (as ++ [n]).foldl (keep acc) none = some n := by
  rw [List.foldl_append]
  cases as with
  | nil => rfl
  | cons a as =>
    obtain ⟨v, hv⟩ := foldl_keep_isSome acc as a
    have hmem : v ∈ a :: as := by
      rcases foldl_keep_mem hv with rfl | hm
      · exact List.mem_cons_self
      · exact List.mem_cons_of_mem _ hm
    have hstart : (a :: as).foldl (keep acc) none = some v := hv
    rw [hstart]
    by_cases hvn : v = n
    · simp [keep, hvn]
    · simp [keep, hacc v hmem hvn]

/-- A value accepted over every other is what is kept, exactly when after some delivery of it
nothing is accepted over it. -/
theorem foldl_keep_iff {l : List Nat} (hn : n ∈ l) (hacc : ∀ v ∈ l, v ≠ n → acc v n = true) :
    l.foldl (keep acc) none = some n ↔ ∃ as bs, l = as ++ n :: bs ∧ ∀ x ∈ bs, acc n x = false := by
  have hsplit : ∀ as bs, l = as ++ n :: bs → l.foldl (keep acc) none = bs.foldl (keep acc) (some n) := by
    rintro as bs rfl
    rw [show as ++ n :: bs = (as ++ [n]) ++ bs by simp, List.foldl_append,
      foldl_keep_concat fun v hv => hacc v (List.mem_append_left _ hv)]
  constructor
  · intro h
    -- the last delivery of `n`
    obtain ⟨bs, as, hrev, hbs⟩ := List.eq_append_cons_of_mem (List.mem_reverse.2 hn)
    have hl : l = as.reverse ++ n :: bs.reverse := by
      rw [← List.reverse_reverse l, hrev]
      simp
    refine ⟨_, _, hl, forall_of_foldl_keep (by simpa using hbs) ?_⟩
    rw [← hsplit _ _ hl, h]
  · rintro ⟨as, bs, hl, hbs⟩
    rw [hsplit as bs hl, foldl_keep_of_forall hbs]

end

/-! ## The comparisons in a window of the ring -/

/-- How far `x` is ahead of `a`. -/
def ringDist (a x : Nat) : Nat := (x + intMaxRing - a) % intMaxRing

/-- The offsets lie in a window of less than a third of the ring that starts at `a`. -/
def InWindow (a : Nat) (l : List Nat) : Prop :=
  1 ≤ a ∧ a ≤ intMaxRing ∧ ∀ x ∈ l, 1 ≤ x ∧ x ≤ intMaxRing ∧ 3 * ringDist a x < intMaxRing

/-- The newest of them in ring order. -/
def Newest (a n : Nat) (l : List Nat) : Prop := n ∈ l ∧ ∀ x ∈ l, ringDist a x ≤ ringDist a n

/-- Some delivery of `n` is followed by no numerically larger offset. -/
def NoneLate (n : Nat) (l : List Nat) : Prop := ∃ as bs, l = as ++ n :: bs ∧ ∀ x ∈ bs, x ≤ n

def luaAccepts (old new : Nat) : Bool :=
  (decide (intMaxRing2 < (old : ℚ)) && decide ((new : ℚ) < intMaxRing1)) || decide (old < new)

def cAccepts (old new : Nat) : Bool :=
  (decide (old > cIntMaxRing2) && decide (new < cIntMaxRing1 + 1)) || decide (old < new)

theorem luaAccepts_eq (old new : Nat) :
    luaAccepts old new = decide ((1431653333 < old ∧ new ≤ 715826666) ∨ old < new) := by
  simp [luaAccepts, ring2_lt_cast, cast_lt_ring1]

theorem cAccepts_eq (old new : Nat) :
    cAccepts old new = decide ((1431653332 < old ∧ new ≤ 715826666) ∨ old < new) := by
  have h2 : cIntMaxRing2 = 1431653332 := by decide
  have h1 : cIntMaxRing1 + 1 = 715826667 := by decide
  simp [cAccepts, h1, h2, Nat.lt_succ_iff]

theorem ringDist_eq {a x : Nat} (ha : 1 ≤ a ∧ a ≤ intMaxRing) (hx : 1 ≤ x ∧ x ≤ intMaxRing) :
    ringDist a x = if a ≤ x then x - a else x + intMaxRing - a := by
  unfold ringDist
  split
  · rw [show x + intMaxRing - a = (x - a) + intMaxRing by omega, Nat.add_mod_right, Nat.mod_eq_of_lt (by omega)]
  · exact Nat.mod_eq_of_lt (by omega)

/-- In a window, a threshold for the last third (1431653332 or 1431653333) tells the offsets
before the wrap from those after it. -/
theorem accepts_in_window {a n t : Nat} {l : List Nat} (hw : InWindow a l) (hn : Newest a n l)
    (ht : t = 1431653332 ∨ t = 1431653333) {x : Nat} (hx : x ∈ l) :
    (x ≠ n → (t < x ∧ n ≤ 715826666) ∨ x < n) ∧ (((t < n ∧ x ≤ 715826666) ∨ n < x) ↔ n < x) := by
  obtain ⟨ha, ha', hall⟩ := hw
  obtain ⟨hx1, hx2, hx3⟩ := hall x hx
  obtain ⟨hn1, hn2, hn3⟩ := hall n hn.1
  have hle := hn.2 x hx
  rw [ringDist_eq ⟨ha, ha'⟩ ⟨hx1, hx2⟩] at hx3 hle
  rw [ringDist_eq ⟨ha, ha'⟩ ⟨hn1, hn2⟩] at hn3 hle
  unfold intMaxRing at *
  by_cases h1 : a ≤ x <;> by_cases h2 : a ≤ n <;>
    simp only [h1, h2, if_true, if_false] at hx3 hn3 hle <;> omega

theorem foldl_newest {a n t : Nat} {l : List Nat} {acc : Nat → Nat → Bool} (hw : InWindow a l) (hn : Newest a n l)
    (ht : t = 1431653332 ∨ t = 1431653333)
    (hacc : ∀ old new, acc old new = decide ((t < old ∧ new ≤ 715826666) ∨ old < new)) :
    l.foldl (keep acc) none = some n ↔ NoneLate n l := by
  rw [foldl_keep_iff hn.1 fun v hv hne => by
    rw [hacc, decide_eq_true_iff]
    exact (accepts_in_window hw hn ht hv).1 hne]
  refine exists_congr fun as => exists_congr fun bs => and_congr_right fun hl => ?_
  refine forall_congr' fun x => forall_congr' fun hx => ?_
  have hxl : x ∈ l := by rw [hl]; simp [hx]
  rw [hacc, decide_eq_false_iff_not, (accepts_in_window hw hn ht hxl).2, not_lt]

/-! ## `cacheL1` -/

structure CacheObj where
  o : Nat
  b : Bytes
  i : Nat
deriving DecidableEq, Repr

/-- An entry of the queue, decoded. -/
structure Popped where
  offset : Nat
  topic : Bytes
  buff : Bytes
  index : Nat
deriving DecidableEq, Repr

abbrev CacheL1 := AssocList Bytes CacheObj

def cacheL1Step (cacheL1 : CacheL1) (e : Popped) : CacheL1 :=
  let obj : CacheObj := ⟨e.offset, e.buff, e.index⟩
  let (cacheL1, tmpObj) :=
    match AssocList.get cacheL1 e.topic with
    | none => (AssocList.set cacheL1 e.topic obj, obj)
    | some tmpObj => (cacheL1, tmpObj)
  if intMaxRing2 < (tmpObj.o : ℚ) ∧ (e.offset : ℚ) < intMaxRing1 then AssocList.set cacheL1 e.topic obj
  else if tmpObj.o < e.offset then AssocList.set cacheL1 e.topic obj
  else cacheL1

/-- The offset kept for a topic. -/
def cachedOffset (cacheL1 : CacheL1) (topic : Bytes) : Option Nat := (AssocList.get cacheL1 topic).map CacheObj.o

theorem luaAccepts_iff (old new : Nat) : luaAccepts old new = true ↔
    (intMaxRing2 < (old : ℚ) ∧ (new : ℚ) < intMaxRing1) ∨ old < new := by
  simp [luaAccepts]

theorem cachedOffset_step_self (cacheL1 : CacheL1) (e : Popped) :
    cachedOffset (cacheL1Step cacheL1 e) e.topic = keep luaAccepts (cachedOffset cacheL1 e.topic) e.offset := by
  unfold cacheL1Step cachedOffset
  cases hg : AssocList.get cacheL1 e.topic with
  | none =>
    simp only [Option.map_none, keep]
    split
    · simp
    · split <;> simp
  | some tmpObj =>
    simp only [Option.map_some, keep]
    by_cases h : luaAccepts tmpObj.o e.offset = true
    · rw [if_pos h]
      rcases (luaAccepts_iff _ _).1 h with h1 | h1
      · rw [if_pos h1]; simp
      · rw [if_pos h1]
        split <;> simp
    · have hno := mt (luaAccepts_iff _ _).2 h
      rw [not_or] at hno
      rw [if_neg h, if_neg hno.1, if_neg hno.2, hg]
      rfl

theorem cachedOffset_step_of_ne (cacheL1 : CacheL1) (e : Popped) {topic : Bytes} (h : topic ≠ e.topic) :
    cachedOffset (cacheL1Step cacheL1 e) topic = cachedOffset cacheL1 topic := by
  have hset : ∀ (c : CacheL1) (v : CacheObj), AssocList.get (AssocList.set c e.topic v) topic = AssocList.get c topic :=
    fun c v => AssocList.get_set_of_ne c v h
  unfold cacheL1Step cachedOffset
  cases hg : AssocList.get cacheL1 e.topic with
  | none =>
    simp only
    split
    · rw [hset, hset]
    · split
      · rw [hset, hset]
      · rw [hset]
  | some tmpObj =>
    simp only
    split
    · rw [hset]
    · split
      · rw [hset]
      · rfl

theorem cachedOffset_foldl (es : List Popped) (cacheL1 : CacheL1) (topic : Bytes) :
    cachedOffset (es.foldl cacheL1Step cacheL1) topic =
      ((es.filter fun e => e.topic = topic).map Popped.offset).foldl (keep luaAccepts) (cachedOffset cacheL1 topic) := by
  induction es generalizing cacheL1 with
  | nil => rfl
  | cons e es ih =>
    rw [List.foldl_cons, ih]
    by_cases h : e.topic = topic
    · subst h
      rw [cachedOffset_step_self, List.filter_cons_of_pos (by simp)]
      rfl
    · rw [cachedOffset_step_of_ne _ _ (Ne.symm h), List.filter_cons_of_neg (by simpa using h)]

/-! ## The dictionary -/

theorem acceptsOffset_bytes {o x : Nat} (ho : 1 ≤ o ∧ o ≤ intMaxRing) (hx : 1 ≤ x ∧ x ≤ intMaxRing) (m m' : Mem) :
    acceptsOffset (Binary64.bytes o ++ₛ m) (Binary64.bytes x ++ₛ m') = cAccepts o x := by
  have hr : intMaxRing < 2 ^ 53 := by decide
  have ho' : 0 < o ∧ o < 2 ^ 53 := by omega
  have hx' : 0 < x ∧ x < 2 ^ 53 := by omega
  unfold acceptsOffset cAccepts
  rw [Binary64.gtInt_bytes ho'.1 ho'.2, Binary64.ltInt_bytes hx'.1 hx'.2, Binary64.ge_bytes ho'.1 ho'.2 _ hx'.1 hx'.2]
  cases h : decide (o > cIntMaxRing2) && decide (x < cIntMaxRing1 + 1) with
  | true => rfl
  | false =>
    rw [if_neg (by simp), Bool.false_or, ← decide_not]
    exact decide_eq_decide.2 not_le

theorem expireLoop_locked (now fuel n : Nat) (z : Shzone) (freed : Nat) :
    (expireLoop now fuel n z freed).1.locked = z.locked := by
  induction fuel generalizing n z freed with
  | zero => rfl
  | succ fuel ih =>
    rw [expireLoop]
    split
    · rfl
    · simp only
      split
      · rfl
      · exact ih _ _ _

/-- A node that has not expired stays. -/
theorem mem_expireLoop {now fuel n : Nat} {z : Shzone} {freed : Nat} (hn : n ≠ 0) (hi : z.WF) {k : NodeKey}
    (hk : k ∈ z.keys) (hexp : now < (z.heap k).expires) : k ∈ (expireLoop now fuel n z freed).1.keys := by
  induction fuel generalizing n z freed with
  | zero => exact hk
  | succ fuel ih =>
    rw [expireLoop]
    split
    · exact hk
    · rename_i x hx
      simp only
      split
      · exact hk
      · rename_i hgo
        have hne : k ≠ x := by
          rintro rfl
          exact hgo ⟨hn, Or.inr (by omega)⟩
        exact ih (by omega) (hi.remove x) (hi.mem_remove.2 ⟨hk, hne⟩) hexp

/-- A live key is found, and nothing is written. -/
theorem enter_live {z : Shzone} (hi : z.Inv) {now : Nat} {key : Bytes} {k : NodeKey} (hk : k ∈ z.keys)
    (hkey : k.key = key) (hexp : now < (z.heap k).expires) :
    (enter z now key).2 = .ok k ∧ k ∈ (enter z now key).1.keys ∧ (enter z now key).1.locked = z.locked := by
  have hk₁ : k ∈ (ngxHttpLuaShdictExpire z now 1).1.keys := mem_expireLoop (by decide) hi.wf hk hexp
  have hi₁ := hi.moves (moves_expire z now 1)
  have hheap := (moves_expire z now 1).heap
  have hlock : (ngxHttpLuaShdictExpire z now 1).1.locked = z.locked := expireLoop_locked _ _ _ _ _
  unfold enter ngxHttpLuaShdictLookup
  cases hl : lookupNode (ngxCrc32Short key) key (ngxHttpLuaShdictExpire z now 1).1.rbtree.root with
  | none =>
    refine absurd ?_ (lookupNode_none (ngxHttpLuaShdictExpire z now 1).1.rbtree.ordered hl k hk₁)
    exact NodeKey.pos_eq (by rw [hi.wf.hash k hk, hkey]) hkey
  | some x =>
    obtain ⟨hx, -, hxkey⟩ := lookupNode_some hl
    obtain rfl := hi₁.unique x hx k hk₁ (hxkey.trans hkey.symm)
    have hsd : ((ngxHttpLuaShdictExpire z now 1).1.touch x).heap x = z.heap x := congrFun hheap x
    simp only [hsd]
    rw [if_neg (by omega)]
    exact ⟨rfl, hk₁, hlock⟩

/-- The entry of `key`: the offset `o`, alive until 30 minutes after `t`. -/
structure Holds (z : Shzone) (key : Bytes) (t o : Nat) (k : NodeKey) : Prop where
  inv : z.Inv
  unlocked : z.locked = false
  mem : k ∈ z.keys
  key : k.key = key
  valueLen : (z.heap k).valueLen = 8
  data : ∃ m, (z.heap k).data.drop (z.heap k).keyLen = Binary64.bytes o ++ₛ m
  expires : t + exptimeMs ≤ (z.heap k).expires

/-- The node as it is written. -/
theorem fillNode_offset {key : Bytes} (hkl : key.length ≤ 65535) (x now : Nat) (size : Int) (old : Mem) :
    (fillNode key (Binary64.bytes x) now size old).valueLen = 8 ∧
      ∃ m, (fillNode key (Binary64.bytes x) now size old).data.drop
        (fillNode key (Binary64.bytes x) now size old).keyLen = Binary64.bytes x ++ₛ m := by
  have h1 : key.length % 2 ^ 16 = key.length := Nat.mod_eq_of_lt (by omega)
  refine ⟨by simp [fillNode], old.drop (key.length + (Binary64.bytes x).length), ?_⟩
  simp only [fillNode, h1]
  rw [Stream'.append_append_stream, drop_append_of_eq _ _ rfl]

/-- One delivery: its time, the allocator, and the offset. -/
structure Delivery where
  now : Nat
  alloc : Nat → Bool
  offset : Nat

def Delivery.value (d : Delivery) (behind : Mem) : Option CStr := some ⟨Binary64.bytes d.offset, behind⟩

def deliver (key : Bytes) (behind : Mem) (z : Shzone) (d : Delivery) : Shzone :=
  (ngxMqttShdictUpdateOffset z d.now d.alloc key (d.value behind) luaShdictReplace).zone

theorem Holds.deliver {z : Shzone} {key : Bytes} {t o : Nat} {k : NodeKey} (h : Holds z key t o k) (behind : Mem)
    {d : Delivery} (hkl : 1 ≤ key.length ∧ key.length ≤ 65535) (hnow : t ≤ d.now ∧ d.now < t + exptimeMs)
    (ho : 1 ≤ o ∧ o ≤ intMaxRing) (hx : 1 ≤ d.offset ∧ d.offset ≤ intMaxRing) :
    Holds (deliver key behind z d) key t (if cAccepts o d.offset then d.offset else o) k := by
  obtain ⟨hrc, hk₁, hlock⟩ := enter_live h.inv h.mem h.key (lt_of_lt_of_le hnow.2 h.expires)
  have hm := (enter_spec z d.now key).1
  have hheap := hm.heap
  obtain ⟨m, hdata⟩ := h.data
  have hacc : acceptsOffset (((enter z d.now key).1.heap k).data.drop ((enter z d.now key).1.heap k).keyLen)
      (Binary64.bytes d.offset ++ₛ behind) = cAccepts o d.offset := by
    rw [hheap, hdata]
    exact acceptsOffset_bytes ho hx m behind
  have hgoto : updateGoto (d.value behind) luaShdictReplace (enter z d.now key).1 (.ok k) =
      if cAccepts o d.offset then .replace k else .keep := by
    rw [← hacc]
    rfl
  have hlen : ¬ (key.length = 0 ∨ key.length > 65535) := by omega
  unfold NgxPlus.Mqtt.deliver ngxMqttShdictUpdateOffset
  rw [if_neg hlen, if_neg (by simp [h.unlocked])]
  simp only [hrc, hgoto]
  cases hc : cAccepts o d.offset with
  | false =>
    simp only [Bool.false_eq_true, if_false]
    exact ⟨h.inv.moves hm, hlock.trans h.unlocked, hk₁, h.key, by rw [hheap]; exact h.valueLen,
      by rw [hheap]; exact h.data, by rw [hheap]; exact h.expires⟩
  | true =>
    have hvl : (Binary64.bytes d.offset).length = ((enter z d.now key).1.heap k).valueLen := by
      rw [hheap, h.valueLen, Binary64.length_bytes]
    simp only [if_true, labelReplace, Delivery.value, if_pos hvl, overwrite]
    have hfill := fillNode_offset hkl.2 d.offset d.now ((enter z d.now key).1.heap k).size
      ((enter z d.now key).1.heap k).data
    refine ⟨((h.inv.moves hm).moves (Moves.refl.touch hk₁)).put _ _, hlock.trans h.unlocked, hk₁, h.key, ?_, ?_, ?_⟩
    · simp only [Shzone.put, Function.update_self]
      exact hfill.1
    · simp only [Shzone.put, Function.update_self]
      exact hfill.2
    · simp only [Shzone.put, Function.update_self, fillNode]
      omega

/-- The first delivery makes the entry. -/
theorem holds_first {z : Shzone} (hi : z.Inv) (hlock : z.locked = false) {key : Bytes}
    (hkl : 1 ≤ key.length ∧ key.length ≤ 65535) (habsent : ∀ k ∈ z.keys, k.key ≠ key) (behind : Mem) {d : Delivery}
    (halloc : d.alloc 0 = true) : ∃ k, Holds (deliver key behind z d) key d.now d.offset k := by
  have hm := moves_expire z d.now 1
  have hi₁ := hi.moves hm
  have henter : enter z d.now key = ((ngxHttpLuaShdictExpire z d.now 1).1, .declined) := by
    unfold enter ngxHttpLuaShdictLookup
    cases hl : lookupNode (ngxCrc32Short key) key (ngxHttpLuaShdictExpire z d.now 1).1.rbtree.root with
    | none => rfl
    | some x =>
      obtain ⟨hx, -, hxkey⟩ := lookupNode_some hl
      exact absurd hxkey (habsent x (hm.keys x hx))
  have hgoto : updateGoto (d.value behind) luaShdictReplace (ngxHttpLuaShdictExpire z d.now 1).1 .declined = .insert := rfl
  have hlen : ¬ (key.length = 0 ∨ key.length > 65535) := by omega
  have hn : 0 ≤ allocSize key (Binary64.bytes d.offset) := by
    unfold allocSize nodeHeader
    rw [Binary64.length_bytes]
    omega
  have hnode : allocNode d.now d.alloc (allocSize key (Binary64.bytes d.offset)) luaShdictReplace
      (ngxHttpLuaShdictExpire z d.now 1).1 = ((ngxHttpLuaShdictExpire z d.now 1).1, true) := by
    rw [allocNode, if_pos (by simp [slabAlloc, hn, halloc])]
  have hlock₁ : (ngxHttpLuaShdictExpire z d.now 1).1.locked = false :=
    (expireLoop_locked _ _ _ _ _).trans hlock
  unfold deliver ngxMqttShdictUpdateOffset
  rw [if_neg hlen, if_neg (by simp [hlock])]
  simp only [henter, hgoto]
  simp only [labelInsert, Delivery.value, hnode, if_true]
  generalize (ngxHttpLuaShdictExpire z d.now 1).1 = z₁ at hm hi₁ hlock₁
  have hfill := fillNode_offset hkl.2 d.offset d.now (allocSize key (Binary64.bytes d.offset) - nodeHeader)
    (z₁.heap (.mk (ngxCrc32Short key) key z₁.next)).data
  refine ⟨.mk (ngxCrc32Short key) key z₁.next, hi₁.insert _ ?_, hlock₁, ?_, rfl, ?_, ?_, ?_⟩
  · intro k hk hpos
    exact habsent k (hm.keys k hk) (congrArg (fun p => (ofLex p).2) hpos)
  · exact (mem_keys_insert z₁.rbtree _ _).2 (Or.inl rfl)
  · simp only [Shzone.insert, Function.update_self]
    exact hfill.1
  · simp only [Shzone.insert, Function.update_self]
    exact hfill.2
  · simp only [Shzone.insert, Function.update_self, fillNode]
    omega

/-- Every delivery in time, the last offset kept by the comparison of offsets. -/
theorem Holds.deliverAll {key : Bytes} {t : Nat} {k : NodeKey} (behind : Mem)
    (hkl : 1 ≤ key.length ∧ key.length ≤ 65535) (ds : List Delivery) {z : Shzone} {o : Nat} (h : Holds z key t o k)
    (ho : 1 ≤ o ∧ o ≤ intMaxRing)
    (hds : ∀ d ∈ ds, (t ≤ d.now ∧ d.now < t + exptimeMs) ∧ 1 ≤ d.offset ∧ d.offset ≤ intMaxRing) :
    ∃ o', Holds (ds.foldl (NgxPlus.Mqtt.deliver key behind) z) key t o' k ∧
      (ds.map Delivery.offset).foldl (keep cAccepts) (some o) = some o' := by
  induction ds generalizing z o with
  | nil => exact ⟨o, h, rfl⟩
  | cons d ds ih =>
    obtain ⟨hnow, hx⟩ := hds d List.mem_cons_self
    refine ih (h.deliver behind hkl hnow ho hx) ?_ fun d' hd' => hds d' (List.mem_cons_of_mem _ hd')
    split
    · exact hx
    · exact ho

/-- The number stored for a key, scaled as `Binary64.value` is. -/
def storedOffset (z : Shzone) (key : Bytes) : Option Int :=
  (lookupNode (ngxCrc32Short key) key z.rbtree.root).bind fun k =>
    Binary64.load ((z.heap k).data.drop (z.heap k).keyLen)

theorem Holds.storedOffset {z : Shzone} {key : Bytes} {t o : Nat} {k : NodeKey} (h : Holds z key t o k)
    (ho : 1 ≤ o ∧ o ≤ intMaxRing) : storedOffset z key = some ((o : Int) * Binary64.scale) := by
  have hr : intMaxRing < 2 ^ 53 := by decide
  obtain ⟨m, hdata⟩ := h.data
  unfold NgxPlus.Mqtt.storedOffset
  cases hl : lookupNode (ngxCrc32Short key) key z.rbtree.root with
  | none =>
    refine absurd ?_ (lookupNode_none z.rbtree.ordered hl k h.mem)
    exact NodeKey.pos_eq (by rw [h.inv.wf.hash k h.mem, h.key]) h.key
  | some x =>
    obtain ⟨hx, -, hxkey⟩ := lookupNode_some hl
    obtain rfl := h.inv.unique x hx k h.mem (hxkey.trans h.key.symm)
    rw [Option.bind_some, hdata]
    exact Binary64.load_bytes (by omega) (by omega) m

/-- **The newest offset wins**, exactly when some delivery of it is followed by no numerically
larger offset (one from before the wrap). In the dictionary, for an entry that is absent from
a zone that is not locked, with memory for the first delivery and all of them within the
entry's 30 minutes; and for every topic among the entries that a worker drains. -/
theorem newest_offset_wins {a n : Nat} {key : Bytes} (behind : Mem) {z : Shzone} (d₀ : Delivery) (ds : List Delivery)
    (hw : InWindow a ((d₀ :: ds).map Delivery.offset)) (hn : Newest a n ((d₀ :: ds).map Delivery.offset))
    (hi : z.Inv) (hlock : z.locked = false) (hkl : 1 ≤ key.length ∧ key.length ≤ 65535)
    (habsent : ∀ k ∈ z.keys, k.key ≠ key) (halloc : d₀.alloc 0 = true)
    (htime : ∀ d ∈ ds, d₀.now ≤ d.now ∧ d.now < d₀.now + exptimeMs) (es : List Popped) (topic : Bytes)
    (hes : (es.filter fun e => e.topic = topic).map Popped.offset = (d₀ :: ds).map Delivery.offset) :
    (storedOffset ((d₀ :: ds).foldl (deliver key behind) z) key = some ((n : Int) * Binary64.scale) ↔
        NoneLate n ((d₀ :: ds).map Delivery.offset)) ∧
      (cachedOffset (es.foldl cacheL1Step []) topic = some n ↔ NoneLate n ((d₀ :: ds).map Delivery.offset)) := by
  have hrange : ∀ d ∈ d₀ :: ds, 1 ≤ d.offset ∧ d.offset ≤ intMaxRing := fun d hd => by
    obtain ⟨h1, h2, -⟩ := hw.2.2 _ (List.mem_map_of_mem hd)
    exact ⟨h1, h2⟩
  have h0 := hrange d₀ List.mem_cons_self
  constructor
  · obtain ⟨k, hk⟩ := holds_first hi hlock hkl habsent behind halloc
    obtain ⟨o, hall, hfold⟩ := hk.deliverAll behind hkl ds h0 fun d hd =>
      ⟨htime d hd, hrange d (List.mem_cons_of_mem _ hd)⟩
    have ho : 1 ≤ o ∧ o ≤ intMaxRing := by
      rcases foldl_keep_mem hfold with rfl | hm
      · exact h0
      · obtain ⟨d, hd, rfl⟩ := List.mem_map.1 hm
        exact hrange d (List.mem_cons_of_mem _ hd)
    have hfold' : ((d₀ :: ds).map Delivery.offset).foldl (keep cAccepts) none = some o := hfold
    rw [← foldl_newest hw hn (Or.inl rfl) cAccepts_eq, hfold']
    rw [show (d₀ :: ds).foldl (deliver key behind) z = ds.foldl (deliver key behind) (deliver key behind z d₀) from rfl,
      hall.storedOffset ho, Option.some.injEq, Option.some.injEq]
    constructor
    · intro h
      exact_mod_cast mul_right_cancel₀ Binary64.scale_pos.ne' h
    · rintro rfl
      rfl
  · rw [cachedOffset_foldl, hes]
    exact foldl_newest hw hn (Or.inr rfl) luaAccepts_eq

/-- Deliveries at one moment, with memory. -/
def atOnce (offsets : List Nat) : List Delivery := offsets.map fun o => ⟨0, fun _ => true, o⟩

def drained (topic : Bytes) (offsets : List Nat) : List Popped := offsets.map fun o => ⟨o, topic, [], 0⟩

/-- Across the wrap, in order: both keep the newest. -/
theorem newest_offset_wins_in_order :
    InWindow 2147479999 [2147479999, 2147480000, 1] ∧
      storedOffset ((atOnce [2147479999, 2147480000, 1]).foldl (deliver [0x61] (Stream'.const 0)) (.init blank)) [0x61] =
        some ((1 : Nat) * Binary64.scale) ∧
      cachedOffset ((drained [0x61] [2147479999, 2147480000, 1]).foldl cacheL1Step []) [0x61] = some 1 := by
  have hw : InWindow 2147479999 [2147479999, 2147480000, 1] := by
    unfold InWindow ringDist intMaxRing
    decide
  have hn : Newest 2147479999 1 [2147479999, 2147480000, 1] := by
    unfold Newest ringDist intMaxRing
    decide
  have hlate : NoneLate 1 [2147479999, 2147480000, 1] := ⟨[2147479999, 2147480000], [], rfl, by simp⟩
  have hkl : 1 ≤ ([0x61] : Bytes).length ∧ ([0x61] : Bytes).length ≤ 65535 := by decide
  have h := newest_offset_wins (Stream'.const 0) ⟨0, fun _ => true, 2147479999⟩ (atOnce [2147480000, 1]) hw hn
    (inv_init blank) rfl hkl (by simp [Shzone.init, Shzone.keys]) rfl (by simp [atOnce, exptimeMs])
    (drained [0x61] [2147479999, 2147480000, 1]) [0x61] rfl
  exact ⟨hw, h.1.2 hlate, h.2.2 hlate⟩

/-- An offset from before the wrap that comes late replaces the newest. -/
theorem late_offset_replaces_newest :
    InWindow 2147479999 [2147479999, 1, 2147480000] ∧ Newest 2147479999 1 [2147479999, 1, 2147480000] ∧
      storedOffset ((atOnce [2147479999, 1, 2147480000]).foldl (deliver [0x61] (Stream'.const 0)) (.init blank)) [0x61] ≠
        some ((1 : Nat) * Binary64.scale) ∧
      cachedOffset ((drained [0x61] [2147479999, 1, 2147480000]).foldl cacheL1Step []) [0x61] ≠ some 1 := by
  refine ⟨?_, ?_, ?_, ?_⟩
  · unfold InWindow ringDist intMaxRing
    decide
  · unfold Newest ringDist intMaxRing
    decide
  · decide +kernel
  · decide +kernel

end NgxPlus.Mqtt
