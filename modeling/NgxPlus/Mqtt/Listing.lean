import NgxPlus.Mqtt.OffsetProcess
import NgxPlus.Mqtt.ShdictList
import NgxPlus.Mqtt.Wildcard

/-!
# Listing topics (`shared_dict_get2mqtt`)

| here | there |
| --- | --- |
| `ngxHttpLuaShdictLookup` | the copy of the lookup in `ngx_http_lua_mqtt_module.c:353-419` |
| `scanQueue`              | the walk from the tail of the LRU queue (`:516-532`) |
| `sharedDictGet2mqtt`     | `:421-536`, of a zone that exists; `isExpression` is what is in the variable at the start |

A Lua table is a function, a number in it the 64 bits of the `double`. Strings in Lua are shorter
than `2^31`, so the loop over the topic sees all of it.

`listing_iff`: topic or filter, and whatever was in the variable, the table has the entries that the
lookup finds alive, exactly when none of them expires at this very millisecond.
-/

namespace NgxPlus.Mqtt.Listing

open ByteMem
open ListDict (lookup_iff)

/-- The bytes behind the key, as a `double`. -/
def num (sd : ShdictNode) : Nat := le 8 (sd.data.drop sd.keyLen)

abbrev LuaTable := Bytes → Option Nat

def noEntries : LuaTable := fun _ => none

def lookupExpired (now : Nat) (sd : ShdictNode) : Prop :=
  sd.expires ≠ 0 ∧ toInt64 (sizeSub sd.expires now) < 0

instance (now : Nat) (sd : ShdictNode) : Decidable (lookupExpired now sd) := by
  unfold lookupExpired
  infer_instance

def ngxHttpLuaShdictLookup (z : Shzone) (now hash : Nat) (key : Bytes) : Shzone × Rc :=
  match lookupNode hash key z.rbtree.root with
  | none => (z, .declined)
  | some k =>
    let z := z.touch k
    if lookupExpired now (z.heap k) then (z, .done k) else (z, .ok k)

def scanQueue (z : Shzone) (now : Nat) (topic : Bytes) : List NodeKey → LuaTable → LuaTable
  | [], t => t
  | k :: prev, t =>
    let sd := z.heap k
    if ngxMqttTopicWildcardMatch sd.data sd.keyLen topic then
      if sd.expires = 0 ∨ sd.expires > now then
        scanQueue z now topic prev (Function.update t (sd.data.take sd.keyLen) (some (num sd)))
      else scanQueue z now topic prev t
    else scanQueue z now topic prev t

inductive Answer
  /-- `nil, "empty topic"` -/
  | emptyTopic
  | table (t : LuaTable)

def hasWildcard (topic : Bytes) : Bool := topic.any fun c => c == 0x2b || c == 0x23

/-- `none` where the mutex was left locked. -/
def sharedDictGet2mqtt (z : Shzone) (now : Nat) (isExpression : Bool) (topic : Bytes) : Shzone × Option Answer :=
  if topic.length = 0 then (z, some .emptyTopic)
  else if z.locked then (z, none)
  else if ¬ (hasWildcard topic || isExpression) then
    match ngxHttpLuaShdictLookup z now (ngxCrc32Short topic) topic with
    | (z, .ok k) =>
      let sd := z.heap k
      (z, some (.table (Function.update noEntries (sd.data.take sd.keyLen) (some (num sd)))))
    | (z, _) => (z, some (.table noEntries))
  else if z.lruQueue = [] then (z, some (.table noEntries))
  else (z, some (.table (scanQueue z now topic z.lruQueue.reverse noEntries)))

/-! ## What is to be listed -/

/-- Each node has the key that it stands for in the tree, and a 64-bit time. -/
structure Filed (z : Shzone) : Prop where
  inv : z.Inv
  keyLen : ∀ k ∈ z.keys, (z.heap k).keyLen = k.key.length
  data : ∀ k ∈ z.keys, (z.heap k).data.take k.key.length = k.key
  expires : ∀ k ∈ z.keys, (z.heap k).expires < 2 ^ 64

/-- A plain topic is the key itself, a filter matches it. -/
def Wanted (z : Shzone) (topic : Bytes) (k : NodeKey) : Prop :=
  if hasWildcard topic then ngxMqttTopicWildcardMatch (z.heap k).data (z.heap k).keyLen topic = true
  else k.key = topic

/-- The table has what the lookup of its key finds alive, whatever was in the variable. -/
def ListsLive (z : Shzone) (now : Nat) (topic : Bytes) : Prop :=
  ∀ isExpression, ∃ t, (sharedDictGet2mqtt z now isExpression topic).2 = some (.table t) ∧
    ∀ key v, t key = some v ↔
      ∃ k, (ngxHttpLuaShdictLookup z now (ngxCrc32Short key) key).2 = .ok k ∧ Wanted z topic k ∧ v = num (z.heap k)

/-- Not at this very millisecond, nor half the range of the clock away. -/
def ExpiryClear (now expires : Nat) : Prop :=
  expires = 0 ∨ (now < expires ∧ expires < now + 2 ^ 63) ∨ (expires < now ∧ now ≤ expires + 2 ^ 63)

/-! ## Plain topics -/

theorem wildcardLoop_plain {search : Bytes} (hp : hasWildcard search = false) (pre rest : Bytes) (m : Mem) (n : Nat)
    (hlen : search.length ≤ rest.length) :
    wildcardLoop ((pre ++ rest) ++ₛ m) (pre ++ rest).length n search pre.length pre.length =
      decide (rest = search) := by
  induction search generalizing pre rest with
  | nil =>
    rw [wildcardLoop, List.length_append]
    cases rest <;> simp
  | cons c search ih =>
    cases rest with
    | nil => simp at hlen
    | cons oc rest =>
      simp only [hasWildcard, List.any_cons, Bool.or_eq_false_iff, beq_eq_false_iff_ne] at hp
      obtain ⟨⟨hplus, hsharp⟩, hrest⟩ := hp
      have hget : ((pre ++ oc :: rest) ++ₛ m).get pre.length = oc :=
        get_of_getElem? (by rw [getElem?_at, List.head?_cons]) m
      have hwrap : sizeSub pre.length (pre.length + 1) ≠ 2 := by
        rw [sizeSub, if_neg (by omega)]
        omega
      have hnext := ih hrest (pre ++ [oc]) rest (by simpa using hlen)
      have hone : (pre ++ [oc]).length = pre.length + 1 := List.length_append
      rw [List.append_assoc, List.singleton_append, hone] at hnext
      rw [wildcardLoop, if_neg hplus, if_neg hsharp, hget, hnext]
      by_cases hc : c = oc
      · subst hc
        simp
      · have hne : ¬ oc :: rest = c :: search := by
          rintro he
          exact hc (List.cons.inj he).1.symm
        simp [hc, hwrap, hne]

theorem wildcardMatch_plain {topic : Bytes} (hp : hasWildcard topic = false) (key : Bytes) (m : Mem) :
    ngxMqttTopicWildcardMatch (key ++ₛ m) key.length topic = decide (key = topic) := by
  rw [ngxMqttTopicWildcardMatch]
  by_cases hlt : key.length < topic.length
  · have hne : key ≠ topic := by
      rintro rfl
      omega
    rw [if_pos hlt, decide_eq_false hne]
  · rw [if_neg hlt]
    exact wildcardLoop_plain hp [] key m topic.length (not_lt.1 hlt)

/-! ## The two searches -/

section

variable {z : Shzone} (now : Nat) {topic : Bytes}

theorem lookup_ok_iff (h : z.Inv) (key : Bytes) (k : NodeKey) :
    (ngxHttpLuaShdictLookup z now (ngxCrc32Short key) key).2 = .ok k ↔
      k ∈ z.keys ∧ k.key = key ∧ ¬ lookupExpired now (z.heap k) := by
  rw [← and_assoc, ← lookup_iff h, ngxHttpLuaShdictLookup]
  cases hl : lookupNode (ngxCrc32Short key) key z.rbtree.root with
  | none => simp
  | some x =>
    have hheap : (z.touch x).heap = z.heap := rfl
    simp only [hheap, Option.some.injEq]
    by_cases he : lookupExpired now (z.heap x)
    · rw [if_pos he]
      constructor
      · intro h
        cases h
      · rintro ⟨rfl, hno⟩
        exact absurd he hno
    · rw [if_neg he]
      constructor
      · intro h
        cases h
        exact ⟨rfl, he⟩
      · rintro ⟨rfl, -⟩
        rfl

theorem Filed.key_eq (h : Filed z) {k : NodeKey} (hk : k ∈ z.keys) :
    (z.heap k).data.take (z.heap k).keyLen = k.key := by
  rw [h.keyLen k hk, h.data k hk]

theorem match_iff_wanted (h : Filed z) {k : NodeKey} (hk : k ∈ z.keys) :
    ngxMqttTopicWildcardMatch (z.heap k).data (z.heap k).keyLen topic = true ↔ Wanted z topic k := by
  rw [Wanted]
  by_cases hw : hasWildcard topic = true
  · rw [if_pos hw]
  · have hdata : (z.heap k).data = k.key ++ₛ (z.heap k).data.drop k.key.length := by
      have hsplit := (Stream'.append_take_drop k.key.length (z.heap k).data).symm
      rwa [h.data k hk] at hsplit
    rw [if_neg hw, h.keyLen k hk, hdata, wildcardMatch_plain (by simpa using hw), decide_eq_true_eq]

/-- The scan lists this node. -/
def Listed (z : Shzone) (now : Nat) (topic : Bytes) (k : NodeKey) : Prop :=
  Wanted z topic k ∧ ((z.heap k).expires = 0 ∨ (z.heap k).expires > now)

theorem scanQueue_listed (h : Filed z) {k : NodeKey} (hk : k ∈ z.keys) (hl : Listed z now topic k) (q : List NodeKey)
    (t : LuaTable) :
    scanQueue z now topic (k :: q) t =
      scanQueue z now topic q (Function.update t k.key (some (num (z.heap k)))) := by
  rw [scanQueue]
  simp only [(match_iff_wanted h hk).2 hl.1, if_true, if_pos hl.2, h.key_eq hk]

theorem scanQueue_not_listed (h : Filed z) {k : NodeKey} (hk : k ∈ z.keys) (hl : ¬ Listed z now topic k)
    (q : List NodeKey) (t : LuaTable) : scanQueue z now topic (k :: q) t = scanQueue z now topic q t := by
  rw [scanQueue]
  by_cases hm : ngxMqttTopicWildcardMatch (z.heap k).data (z.heap k).keyLen topic = true
  · have hdead := fun hlive => hl ⟨(match_iff_wanted h hk).1 hm, hlive⟩
    simp only [hm, if_true, if_neg hdead]
  · simp only [hm, Bool.false_eq_true, if_false]

/-- Later entries would replace earlier ones of the same key; there are none. -/
theorem scanQueue_iff (h : Filed z) {q : List NodeKey} (hq : ∀ k ∈ q, k ∈ z.keys) (hnd : q.Nodup) (t : LuaTable)
    (key : Bytes) (v : Nat) :
    scanQueue z now topic q t key = some v ↔
      (∃ k ∈ q, Listed z now topic k ∧ k.key = key ∧ v = num (z.heap k)) ∨
        (t key = some v ∧ ∀ k ∈ q, Listed z now topic k → k.key ≠ key) := by
  induction q generalizing t with
  | nil => simp [scanQueue]
  | cons k q ih =>
    rw [List.forall_mem_cons] at hq
    rw [List.nodup_cons] at hnd
    have hrest := ih hq.2 hnd.2
    by_cases hl : Listed z now topic k
    · have hother : ∀ k' ∈ q, k'.key ≠ k.key := by
        intro k' hk' he
        exact hnd.1 (h.inv.unique k' (hq.2 k' hk') k hq.1 he ▸ hk')
      rw [scanQueue_listed now h hq.1 hl, hrest]
      by_cases hkey : k.key = key
      · subst hkey
        have hnone : ¬ ∃ k' ∈ q, Listed z now topic k' ∧ k'.key = k.key ∧ v = num (z.heap k') := by
          rintro ⟨k', hk', -, he, -⟩
          exact hother k' hk' he
        simp only [hnone, false_or, Function.update_self, Option.some.injEq, List.mem_cons, exists_eq_or_imp, hl,
          true_and, or_false, forall_eq_or_imp, ne_eq, not_true_eq_false, imp_false, false_and, and_false]
        constructor
        · rintro ⟨rfl, -⟩
          rfl
        · intro hv
          exact ⟨hv.symm, fun k' hk' _ => hother k' hk'⟩
      · simp [Function.update_of_ne (Ne.symm hkey), hkey]
    · rw [scanQueue_not_listed now h hq.1 hl, hrest]
      simp [hl]

theorem answer_scan (h : Filed z) (htopic : topic ≠ []) (hfree : z.locked = false) {isExpression : Bool}
    (hscan : (hasWildcard topic || isExpression) = true) :
    ∃ t, (sharedDictGet2mqtt z now isExpression topic).2 = some (.table t) ∧
      ∀ key v, t key = some v ↔ ∃ k ∈ z.keys, Listed z now topic k ∧ k.key = key ∧ v = num (z.heap k) := by
  have hlen : ¬ topic.length = 0 := fun h => htopic (List.length_eq_zero_iff.1 h)
  have hmem : ∀ {k}, k ∈ z.lruQueue.reverse ↔ k ∈ z.keys := fun {k} => List.mem_reverse.trans (h.inv.wf.same k)
  refine ⟨scanQueue z now topic z.lruQueue.reverse noEntries, ?_, fun key v => ?_⟩
  · rw [sharedDictGet2mqtt, if_neg hlen, if_neg (by simp [hfree]), if_neg (by simp [hscan])]
    split
    · next hempty =>
      rw [hempty]
      rfl
    · rfl
  · rw [scanQueue_iff now h (fun k hk => hmem.1 hk) (List.nodup_reverse.2 h.inv.wf.queueNodup)]
    simp [hmem, noEntries]

theorem lookup_heap (z : Shzone) (now hash : Nat) (key : Bytes) :
    (ngxHttpLuaShdictLookup z now hash key).1.heap = z.heap := by
  rw [ngxHttpLuaShdictLookup]
  cases lookupNode hash key z.rbtree.root with
  | none => rfl
  | some k =>
    simp only
    split <;> rfl

theorem answer_lookup (h : Filed z) (htopic : topic ≠ []) (hfree : z.locked = false)
    (hplain : hasWildcard topic = false) :
    ∃ t, (sharedDictGet2mqtt z now false topic).2 = some (.table t) ∧
      ∀ key v, t key = some v ↔ ∃ k ∈ z.keys, ¬ lookupExpired now (z.heap k) ∧ k.key = topic ∧ k.key = key ∧
        v = num (z.heap k) := by
  have hlen : ¬ topic.length = 0 := fun h => htopic (List.length_eq_zero_iff.1 h)
  have hok := fun k => lookup_ok_iff now h.inv topic k
  have hheap := lookup_heap z now (ngxCrc32Short topic) topic
  rw [sharedDictGet2mqtt, if_neg hlen, if_neg (by simp [hfree]), if_pos (by simp [hplain])]
  cases hl : ngxHttpLuaShdictLookup z now (ngxCrc32Short topic) topic with
  | mk z' rc =>
    rw [hl] at hok hheap
    simp only at hok hheap
    cases rc with
    | ok k =>
      obtain ⟨hk, hkey, hlive⟩ := (hok k).1 rfl
      refine ⟨_, rfl, fun key v => ?_⟩
      simp only [hheap, h.key_eq hk]
      by_cases hkk : key = k.key
      · subst hkk
        rw [Function.update_self]
        constructor
        · intro hv
          exact ⟨k, hk, hlive, hkey, rfl, (Option.some.inj hv).symm⟩
        · rintro ⟨k', hk', -, -, he, hv⟩
          rw [hv, h.inv.unique k' hk' k hk he]
      · rw [Function.update_of_ne hkk]
        constructor
        · intro hv
          cases hv
        · rintro ⟨k', hk', -, ht, he, -⟩
          exact absurd (by rw [← he, ht, hkey]) hkk
    | done k | declined =>
      refine ⟨_, rfl, fun key v => ?_⟩
      constructor
      · intro hv
        cases hv
      · rintro ⟨k', hk', hlive, ht, -, -⟩
        exact absurd ((hok k').2 ⟨hk', ht, hlive⟩) (by simp)

end

/-! ## Both -/

theorem toInt64_neg_iff {n : Nat} (hn : n < 2 ^ 64) : toInt64 n < 0 ↔ 2 ^ 63 ≤ n := by
  rw [toInt64]
  split <;> omega

/-- The two tests of the time, side by side. -/
theorem expiryClear_iff {now : Nat} {sd : ShdictNode} (hnow : now < 2 ^ 64) (he : sd.expires < 2 ^ 64) :
    ((sd.expires = 0 ∨ sd.expires > now) ↔ ¬ lookupExpired now sd) ↔ ExpiryClear now sd.expires := by
  have hlt : sizeSub sd.expires now < 2 ^ 64 := by
    rw [sizeSub]
    split <;> omega
  rw [lookupExpired, toInt64_neg_iff hlt, ExpiryClear, sizeSub]
  split <;> omega

section

variable {z : Shzone} {now : Nat} {topic : Bytes}

theorem nonempty_of_listsLive (h : ListsLive z now topic) : topic ≠ [] := by
  rintro rfl
  obtain ⟨t, ht, -⟩ := h true
  rw [sharedDictGet2mqtt, if_pos List.length_nil] at ht
  cases ht

theorem free_of_listsLive (h : ListsLive z now topic) : z.locked = false := by
  by_contra hlocked
  rw [Bool.not_eq_false] at hlocked
  have hlen : ¬ topic.length = 0 := fun hl => nonempty_of_listsLive h (List.length_eq_zero_iff.1 hl)
  obtain ⟨t, ht, -⟩ := h true
  rw [sharedDictGet2mqtt, if_neg hlen, if_pos hlocked] at ht
  cases ht

/-- The scan has to agree with the lookup on every entry that is asked for. -/
theorem tests_agree (h : Filed z) (hl : ListsLive z now topic) {k : NodeKey} (hk : k ∈ z.keys)
    (hw : Wanted z topic k) :
    ((z.heap k).expires = 0 ∨ (z.heap k).expires > now) ↔ ¬ lookupExpired now (z.heap k) := by
  obtain ⟨t, ht, hlive⟩ := hl true
  obtain ⟨t', ht', hscan⟩ := answer_scan now h (nonempty_of_listsLive hl) (free_of_listsLive hl)
    (Bool.or_true _)
  rw [ht] at ht'
  obtain rfl : t = t' := by
    cases ht'
    rfl
  constructor
  · intro hlater
    obtain ⟨k', hok, -, -⟩ := (hlive _ _).1 ((hscan k.key (num (z.heap k))).2 ⟨k, hk, ⟨hw, hlater⟩, rfl, rfl⟩)
    obtain ⟨hk', hkey, hno⟩ := (lookup_ok_iff now h.inv _ _).1 hok
    rwa [h.inv.unique k' hk' k hk hkey] at hno
  · intro hno
    have hok := (lookup_ok_iff now h.inv _ _).2 ⟨hk, rfl, hno⟩
    obtain ⟨k', hk', hlisted, hkey, -⟩ := (hscan _ _).1 ((hlive k.key (num (z.heap k))).2 ⟨k, hok, hw, rfl⟩)
    rw [h.inv.unique k' hk' k hk hkey] at hlisted
    exact hlisted.2

theorem listsLive_of_agree (h : Filed z) (htopic : topic ≠ []) (hfree : z.locked = false)
    (hagree : ∀ k ∈ z.keys, Wanted z topic k →
      (((z.heap k).expires = 0 ∨ (z.heap k).expires > now) ↔ ¬ lookupExpired now (z.heap k))) :
    ListsLive z now topic := by
  intro isExpression
  by_cases hscan : (hasWildcard topic || isExpression) = true
  · obtain ⟨t, ht, hlist⟩ := answer_scan now h htopic hfree hscan
    refine ⟨t, ht, fun key v => ?_⟩
    rw [hlist]
    constructor
    · rintro ⟨k, hk, ⟨hw, hlater⟩, hkey, hv⟩
      exact ⟨k, (lookup_ok_iff now h.inv _ _).2 ⟨hk, hkey, (hagree k hk hw).1 hlater⟩, hw, hv⟩
    · rintro ⟨k, hok, hw, hv⟩
      obtain ⟨hk, hkey, hno⟩ := (lookup_ok_iff now h.inv _ _).1 hok
      exact ⟨k, hk, ⟨hw, (hagree k hk hw).2 hno⟩, hkey, hv⟩
  · rw [Bool.not_eq_true, Bool.or_eq_false_iff] at hscan
    obtain ⟨hplain, rfl⟩ := hscan
    obtain ⟨t, ht, hlist⟩ := answer_lookup now h htopic hfree hplain
    have hwanted : ∀ k, Wanted z topic k ↔ k.key = topic := by
      intro k
      rw [Wanted, if_neg (by simp [hplain])]
    refine ⟨t, ht, fun key v => ?_⟩
    rw [hlist]
    constructor
    · rintro ⟨k, hk, hno, hkt, hkey, hv⟩
      exact ⟨k, (lookup_ok_iff now h.inv _ _).2 ⟨hk, hkey, hno⟩, (hwanted k).2 hkt, hv⟩
    · rintro ⟨k, hok, hw, hv⟩
      obtain ⟨hk, hkey, hno⟩ := (lookup_ok_iff now h.inv _ _).1 hok
      exact ⟨k, hk, hno, (hwanted k).1 hw, hkey, hv⟩

end

/-- **Listing topics**: for a topic and for a filter, whatever is in the variable at the start, the
table has exactly what the lookup finds alive, if and only if the topic is not empty, the mutex is
free, and no entry that is asked for expires at this millisecond. -/
theorem listing_iff {z : Shzone} (h : Filed z) {now : Nat} (hnow : now < 2 ^ 64) (topic : Bytes) :
    ListsLive z now topic ↔
      topic ≠ [] ∧ z.locked = false ∧ ∀ k ∈ z.keys, Wanted z topic k → ExpiryClear now (z.heap k).expires := by
  constructor
  · intro hl
    refine ⟨nonempty_of_listsLive hl, free_of_listsLive hl, fun k hk hw => ?_⟩
    exact (expiryClear_iff hnow (h.expires k hk)).1 (tests_agree h hl hk hw)
  · rintro ⟨htopic, hfree, hclear⟩
    refine listsLive_of_agree h htopic hfree fun k hk hw => ?_
    exact (expiryClear_iff hnow (h.expires k hk)).2 (hclear k hk hw)

/-- Topic `a`, until `expires`. -/
def oneTopic (expires : Nat) : Shzone :=
  (Shzone.init blank).insert (.mk (ngxCrc32Short [0x61]) [0x61] 0) ⟨1, 8, expires, [0x61] ++ₛ Stream'.const 0, 9⟩

theorem keys_oneTopic (expires : Nat) : (oneTopic expires).keys = [.mk (ngxCrc32Short [0x61]) [0x61] 0] := rfl

theorem heap_oneTopic (expires : Nat) :
    (oneTopic expires).heap (.mk (ngxCrc32Short [0x61]) [0x61] 0) = ⟨1, 8, expires, [0x61] ++ₛ Stream'.const 0, 9⟩ :=
  Function.update_self ..

theorem filed_oneTopic {expires : Nat} (h : expires < 2 ^ 64) : Filed (oneTopic expires) := by
  have hinv : (oneTopic expires).Inv := (inv_init blank).insert _ (by simp [Shzone.init, Shzone.keys])
  refine ⟨hinv, ?_, ?_, ?_⟩
  all_goals
    intro k hk
    rw [keys_oneTopic, List.mem_singleton] at hk
    subst hk
    rw [heap_oneTopic]
  · rfl
  · rfl
  · exact h

theorem listing_iff_later : ListsLive (oneTopic 2000) 1000 [0x61] := by
  refine (listing_iff (filed_oneTopic (by decide)) (by decide) _).2 ⟨by decide, rfl, fun k hk _ => ?_⟩
  rw [keys_oneTopic, List.mem_singleton] at hk
  rw [hk, heap_oneTopic]
  exact Or.inr (Or.inl ⟨by decide, by decide⟩)

/-- At the millisecond of its expiry the lookup still has the entry, the scan no longer. -/
theorem expiring_now_not_listed :
    ¬ ∀ (z : Shzone) (now : Nat) (topic : Bytes), Filed z → now < 2 ^ 64 → ListsLive z now topic := by
  intro h
  have hfiled : Filed (oneTopic 1000) := filed_oneTopic (by decide)
  have hl := h (oneTopic 1000) 1000 [0x61] hfiled (by decide)
  have hagree := tests_agree hfiled hl (k := .mk (ngxCrc32Short [0x61]) [0x61] 0) (by simp [keys_oneTopic]) rfl
  rw [heap_oneTopic] at hagree
  exact absurd hagree (by decide)

end NgxPlus.Mqtt.Listing
