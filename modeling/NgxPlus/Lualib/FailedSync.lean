import Mathlib.Data.List.Nodup
import Mathlib.Data.List.TakeWhile
import NgxPlus.Lualib.Redis3

/-!
# A synchronisation that fails (`lib/redis3.lua`)

`build_slots` gets the cache of the client itself as `out_data` (`:277`) and writes each range as
soon as it is read (`:151-158`), so that a reply that breaks later, or an error in a later range,
leaves the ranges before it in the cache (`get_syncSlots`). The function never takes them back,
and the next node is asked with what is there then.

* `failed_sync_leaves_iff`: the cache is as before exactly where each range that came whole was
  there already.
* `broken_reply`: the ranges that come whole out of a reply that breaks.
-/

namespace NgxPlus.Redis3

open ByteMem Decode

/-! ## What is written -/

/-- The ranges that are read whole, before the reply is over or something goes wrong. -/
def readRanges : Nat → Bytes → List (Option Slot)
  | 0, _ => []
  | n + 1, sock =>
    match buildSlot sock with
    | .error _ => []
    | .ok (res, sock) => res :: readRanges n sock

def wholeRanges (sock : Bytes) : List (Option Slot) :=
  match header sock with
  | .error _ => []
  | .ok (n, sock) => readRanges n.toNat sock

def assignAll : Nat → List (Option Slot) → Cache → Cache
  | _, [], cache => cache
  | i, res :: ranges, cache => assignAll (i + 1) ranges (assign cache i res)

theorem fill_fst (n i : Nat) (sock : Bytes) (cache : Cache) :
    (fill n i sock cache).1 = assignAll i (readRanges n sock) cache := by
  induction n generalizing i sock cache with
  | zero => rfl
  | succ n ih =>
    rw [fill, readRanges]
    cases buildSlot sock with
    | error e => rfl
    | ok r => exact ih (i + 1) r.2 _

theorem buildSlots_fst (sock : Bytes) (cache : Cache) :
    (buildSlots sock cache).1 = assignAll 1 (wholeRanges sock) cache := by
  rw [buildSlots, wholeRanges]
  cases header sock with
  | error e => rfl
  | ok r => exact fill_fst ..

theorem get_assign (cache : Cache) (i k : Nat) (res : Option Slot) :
    (assign cache i res).get k = if k = i then res else cache.get k := by
  cases res with
  | none =>
    by_cases h : k = i
    · subst h
      rw [if_pos rfl]
      exact AssocList.get_eq_none (by simp [assign, AssocList.delete])
    · rw [if_neg h]
      exact AssocList.get_delete_of_ne _ h
  | some s =>
    by_cases h : k = i
    · subst h
      rw [if_pos rfl]
      exact AssocList.get_set_self ..
    · rw [if_neg h]
      exact AssocList.get_set_of_ne _ _ h

theorem get_assignAll (i : Nat) (ranges : List (Option Slot)) (cache : Cache) (k : Nat) :
    (assignAll i ranges cache).get k = if i ≤ k then ranges[k - i]?.getD (cache.get k) else cache.get k := by
  induction ranges generalizing i cache with
  | nil => simp [assignAll]
  | cons res ranges ih =>
    rw [assignAll, ih, get_assign]
    by_cases h : i ≤ k
    · rw [if_pos h]
      by_cases hk : k = i
      · subst hk
        simp
      · obtain ⟨j, hj⟩ : ∃ j, k - i = j + 1 := ⟨k - i - 1, by omega⟩
        rw [if_pos (by omega), if_neg hk, hj, List.getElem?_cons_succ, show k - (i + 1) = j by omega]
    · rw [if_neg (by omega), if_neg (by omega), if_neg h]

/-- What the reply to one request puts at position `k`. -/
def Attempt.written (a : Attempt) (k : Nat) : Option (Option Slot) :=
  if (a.connected && a.sent) = true ∧ 1 ≤ k then (wholeRanges a.bytes)[k - 1]? else none

/-- What the last reply with such a range puts there. -/
def written : List Attempt → Nat → Option (Option Slot)
  | [], _ => none
  | a :: args, k => (written args k).or (a.written k)

theorem syncSlots_cons {a : Attempt} (h : a.Fails) (args : List Attempt) (cache : Cache) :
    syncSlots (a :: args) cache =
      syncSlots args (if (a.connected && a.sent) = true then assignAll 1 (wholeRanges a.bytes) cache else cache) := by
  rw [syncSlots]
  split
  · rename_i hsent
    obtain ⟨e, he⟩ := h hsent cache
    rw [← buildSlots_fst]
    generalize buildSlots a.bytes cache = r at he
    obtain ⟨c, stop⟩ := r
    subst he
    rfl
  · rfl

theorem get_syncSlots {args : List Attempt} (h : ∀ a ∈ args, a.Fails) (cache : Cache) (k : Nat) :
    (syncSlots args cache).get k = (written args k).getD (cache.get k) := by
  induction args generalizing cache with
  | nil => rfl
  | cons a args ih =>
    rw [syncSlots_cons (h a List.mem_cons_self), ih (fun x hx => h x (List.mem_cons_of_mem _ hx)), written]
    cases written args k with
    | some v => rfl
    | none =>
      rw [Option.none_or, Option.getD_none, Attempt.written]
      by_cases hsent : (a.connected && a.sent) = true
      · rw [if_pos hsent, get_assignAll]
        by_cases hk : 1 ≤ k
        · rw [if_pos hk, if_pos ⟨hsent, hk⟩]
        · rw [if_neg hk, if_neg (fun h => hk h.2)]
          rfl
      · rw [if_neg hsent, if_neg (fun h => hsent h.1)]
        rfl

/-! ## The table -/

theorem nodup_assign {cache : Cache} (h : (cache.map Prod.fst).Nodup) (i : Nat) (res : Option Slot) :
    ((assign cache i res).map Prod.fst).Nodup := by
  have hdel : ((cache.delete i).map Prod.fst).Nodup := (List.filter_sublist.map _).nodup h
  cases res with
  | none => exact hdel
  | some s =>
    refine List.nodup_cons.2 ⟨?_, hdel⟩
    simp [AssocList.delete]

theorem nodup_assignAll {cache : Cache} (h : (cache.map Prod.fst).Nodup) (i : Nat) (ranges : List (Option Slot)) :
    ((assignAll i ranges cache).map Prod.fst).Nodup := by
  induction ranges generalizing i cache with
  | nil => exact h
  | cons res ranges ih => exact ih (nodup_assign h i res) (i + 1)

theorem nodup_syncSlots {args : List Attempt} (h : ∀ a ∈ args, a.Fails) {cache : Cache}
    (hc : (cache.map Prod.fst).Nodup) : ((syncSlots args cache).map Prod.fst).Nodup := by
  induction args generalizing cache with
  | nil => exact hc
  | cons a args ih =>
    rw [syncSlots_cons (h a List.mem_cons_self)]
    refine ih (fun x hx => h x (List.mem_cons_of_mem _ hx)) ?_
    split
    · exact nodup_assignAll hc 1 _
    · exact hc

/-- Two tables have the same entries where they answer alike. -/
theorem perm_of_get {d d' : Cache} (hd : (d.map Prod.fst).Nodup) (hd' : (d'.map Prod.fst).Nodup)
    (h : ∀ k, d.get k = d'.get k) : d.Perm d' := by
  refine (List.perm_ext_iff_of_nodup (List.Nodup.of_map _ hd) (List.Nodup.of_map _ hd')).2 fun p => ?_
  constructor
  · intro hp
    have := AssocList.get_of_mem hd hp
    rw [h] at this
    exact AssocList.mem_of_get this
  · intro hp
    have := AssocList.get_of_mem hd' hp
    rw [← h] at this
    exact AssocList.mem_of_get this

theorem get_of_perm {d d' : Cache} (hd' : (d'.map Prod.fst).Nodup) (h : d.Perm d') (k : Nat) :
    d.get k = d'.get k := by
  have hd : (d.map Prod.fst).Nodup := (h.map _).nodup_iff.2 hd'
  cases hk : d'.get k with
  | some s => exact AssocList.get_of_mem hd (h.mem_iff.2 (AssocList.mem_of_get hk))
  | none =>
    refine AssocList.get_eq_none fun hmem => ?_
    obtain ⟨p, hp, rfl⟩ := List.mem_map.1 hmem
    exact AssocList.ne_of_get_none hk (h.mem_iff.1 hp) rfl

/-! ## As before -/

/-- What `connect` can do for a key, with the entries in any order. -/
def Routes (cache : Cache) (key : Bytes) (o : Outcome) : Prop := ∃ entries, entries.Perm cache ∧ connect entries key = o

/-- The cache has the entries that it had, and every key is routed as before. -/
def Leaves (args : List Attempt) (cache : Cache) : Prop :=
  (syncSlots args cache).Perm cache ∧ ∀ key o, Routes (syncSlots args cache) key o ↔ Routes cache key o

/-- **A failed synchronisation leaves the cache alone exactly where every range that came whole was
there already.** -/
theorem failed_sync_leaves_iff {args : List Attempt} (h : ∀ a ∈ args, a.Fails) {cache : Cache}
    (hc : (cache.map Prod.fst).Nodup) :
    Leaves args cache ↔ ∀ k res, written args k = some res → cache.get k = res := by
  constructor
  · rintro ⟨hperm, -⟩ k res hw
    have := get_of_perm hc hperm k
    rw [get_syncSlots h, hw] at this
    exact this.symm
  · intro hw
    have hperm : (syncSlots args cache).Perm cache := by
      refine perm_of_get (nodup_syncSlots h hc) hc fun k => ?_
      rw [get_syncSlots h]
      cases hk : written args k with
      | none => rfl
      | some res => exact (hw k res hk).symm
    refine ⟨hperm, fun key o => ?_⟩
    constructor
    · rintro ⟨entries, he, ho⟩
      exact ⟨entries, he.trans hperm, ho⟩
    · rintro ⟨entries, he, ho⟩
      exact ⟨entries, he.trans hperm.symm, ho⟩

/-! ## A reply that breaks -/

section Breaks

variable {α β : Type}

/-- On a part of `l` without its end, the connection ends. -/
def Breaks (P : Bytes → Except Stop α) (l : Bytes) : Prop := ∀ k < l.length, P (l.take k) = .error (.err .sock)

theorem Breaks.bind {P : Bytes → Except Stop (α × Bytes)} {f : α × Bytes → Except Stop β} {l₁ l₂ : Bytes} {v : α}
    (hP : Breaks P l₁) (hok : ∀ rest, P (l₁ ++ rest) = .ok (v, rest)) (hf : Breaks (fun sock => f (v, sock)) l₂) :
    Breaks (fun sock => P sock >>= f) (l₁ ++ l₂) := by
  intro k hk
  by_cases h : k < l₁.length
  · simp only [List.take_append_of_le_length (le_of_lt h), hP k h, error_bind]
  · rw [List.length_append] at hk
    simp only [List.take_append, List.take_of_length_le (not_lt.1 h), hok, ok_bind]
    exact hf _ (by omega)

theorem breaks_receive {l : Bytes} (h : ∀ c ∈ l, c ≠ 10) : Breaks receive (l ++ [10]) := by
  intro k hk
  rw [List.length_append, List.length_singleton] at hk
  have hdrop : (l.take k).dropWhile (· != 10) = [] :=
    List.dropWhile_eq_nil_iff.2 fun c hc => by simpa using h c (List.mem_of_mem_take hc)
  rw [List.take_append_of_le_length (by omega), receive, hdrop]

theorem breaks_line {c : UInt8} (hc : c ≠ 10) (n : Nat) : Breaks receive (line c n) := by
  have hsplit : line c n = (c :: digits n ++ [13]) ++ [10] := by simp [line]
  rw [hsplit]
  refine breaks_receive fun x hx => ?_
  rcases List.mem_append.1 hx with hx | hx
  · rcases List.mem_cons.1 hx with rfl | hx
    · exact hc
    · rintro rfl
      exact absurd (isDigit_of_mem_digits hx) (by decide)
  · rw [List.mem_singleton.1 hx]
    decide

theorem breaks_bytes (l : Bytes) : Breaks (receiveBytes l.length) l := by
  intro k hk
  rw [receiveBytes, if_neg (by rw [List.length_take]; omega)]

end Breaks

theorem breaks_header (n : Nat) : Breaks header (line 0x2a n) := by
  intro k hk
  rw [header, breaks_line (by decide) n k hk]
  rfl

theorem breaks_readAddr (s : Slot) (a : Addr) : Breaks (readAddr s) a.bytes := by
  have hsize : ¬ (a.ip.length : Int) < 0 := by omega
  have hrest : Breaks (fun sock => receiveBytes a.ip.length sock >>= fun ip => receiveBytes 2 ip.2 >>= fun r =>
      receive r.2 >>= fun l =>
        (.ok (some { s with addrs := some (s.addrs.getD [] ++
            .str ip.1 :: ((tonumber (l.1.drop 1)).map Val.num).toList) }, l.2) : Except Stop (Option Slot × Bytes)))
      (a.ip ++ ([13, 10] ++ line 0x3a a.port)) := by
    refine (breaks_bytes a.ip).bind (receiveBytes_append a.ip) ?_
    dsimp only
    refine (breaks_bytes [13, 10]).bind (receiveBytes_append [13, 10]) ?_
    intro k hk
    simp only [breaks_line (show (0x3a : UInt8) ≠ 10 by decide) a.port k hk, error_bind]
  refine (breaks_line (by decide) 2).bind (receive_line (by decide) 2) ?_
  refine (breaks_line (by decide) a.ip.length).bind (receive_line (by decide) a.ip.length) ?_
  simp only [List.drop_succ_cons, List.drop_zero, tonumber_digits, if_neg hsize, Int.toNat_natCast]
  exact hrest

theorem breaks_readAddrs (s : Slot) (addrs : List Addr) :
    Breaks (readAddrs addrs.length s) (addrs.flatMap Addr.bytes) := by
  induction addrs generalizing s with
  | nil =>
    intro k hk
    rw [List.flatMap_nil] at hk
    exact absurd hk (Nat.not_lt_zero k)
  | cons a addrs ih =>
    exact (breaks_readAddr s a).bind (readAddr_bytes s a) (ih _)

theorem breaks_buildSlot (r : Range) : Breaks buildSlot r.bytes := by
  have hn : ((r.addrs.length + 2 : Nat) - 2 : Int).toNat = r.addrs.length := by omega
  refine (breaks_header _).bind (header_line _) ?_
  refine (breaks_line (by decide) r.min).bind (receive_line (by decide) r.min) ?_
  refine (breaks_line (by decide) r.max).bind (receive_line (by decide) r.max) ?_
  simp only [hn]
  exact breaks_readAddrs _ _

/-- The ranges that lie in the first `k` bytes. -/
def whole : List Range → Nat → List Range
  | [], _ => []
  | r :: ranges, k => if r.bytes.length ≤ k then r :: whole ranges (k - r.bytes.length) else []

theorem fill_broken {ranges : List Range} (h : ∀ r ∈ ranges, r.addrs ≠ []) {k : Nat}
    (hk : k < (ranges.flatMap Range.bytes).length) (i : Nat) (cache : Cache) :
    readRanges ranges.length ((ranges.flatMap Range.bytes).take k) = (whole ranges k).map (fun r => some r.slot) ∧
      (fill ranges.length i ((ranges.flatMap Range.bytes).take k) cache).2 = some (.err .sock) := by
  induction ranges generalizing k i cache with
  | nil => exact absurd hk (Nat.not_lt_zero k)
  | cons r ranges ih =>
    rw [List.flatMap_cons, List.length_append] at hk
    rw [List.length_cons, readRanges, fill, whole, List.flatMap_cons]
    by_cases hr : r.bytes.length ≤ k
    · obtain ⟨hread, hfill⟩ := ih (fun x hx => h x (List.mem_cons_of_mem _ hx)) (k := k - r.bytes.length) (by omega)
        (i + 1) (assign cache i (some r.slot))
      rw [List.take_append, List.take_of_length_le hr, buildSlot_bytes (h r List.mem_cons_self), if_pos hr]
      exact ⟨by rw [List.map_cons, ← hread], hfill⟩
    · rw [List.take_append_of_le_length (by omega), breaks_buildSlot r k (by omega), if_neg hr]
      exact ⟨rfl, rfl⟩

/-- A reply that breaks anywhere fails, and leaves the ranges that came whole. -/
theorem broken_reply {ranges : List Range} (h : ∀ r ∈ ranges, r.addrs ≠ []) {k : Nat}
    (hk : k < (replyBytes ranges).length) :
    Attempt.Fails ⟨true, true, (replyBytes ranges).take k⟩ ∧
      wholeRanges ((replyBytes ranges).take k) =
        (whole ranges (k - (line 0x2a ranges.length).length)).map fun r => some r.slot := by
  rw [replyBytes, List.length_append] at hk
  rw [replyBytes]
  by_cases hline : (line 0x2a ranges.length).length ≤ k
  · have hrest : k - (line 0x2a ranges.length).length < (ranges.flatMap Range.bytes).length := by omega
    rw [List.take_append, List.take_of_length_le hline]
    constructor
    · intro _ cache
      refine ⟨.sock, ?_⟩
      rw [buildSlots, header_line]
      exact (fill_broken h hrest 1 cache).2
    · rw [wholeRanges, header_line]
      exact (fill_broken h hrest 1 []).1
  · have hcut := breaks_header ranges.length k (by omega)
    rw [List.take_append_of_le_length (by omega), Nat.sub_eq_zero_of_le (by omega)]
    constructor
    · intro _ cache
      refine ⟨.sock, ?_⟩
      rw [buildSlots, hcut]
    · rw [wholeRanges, hcut]
      cases ranges with
      | nil => rfl
      | cons r ranges =>
        have hpos : ¬ r.bytes.length ≤ 0 := by simp [Range.bytes, line]
        rw [whole, if_neg hpos]
        rfl

/-- A request that cannot be made, or that is answered by an error, fails and leaves nothing. -/
theorem refused_fails {a : Attempt} (h : (a.connected && a.sent) = false) : a.Fails := fun hsent => by
  rw [h] at hsent
  cases hsent

/-- Two nodes, the first of which is down and the second answers with an error. -/
def downAndError : List Attempt := [⟨false, false, []⟩, ⟨true, true, [0x2d, 0x45, 0x52, 0x52, 13, 10]⟩]

theorem failed_sync_leaves_twoRanges : Leaves downAndError (writeAll 1 twoRanges []) := by
  have hfails : ∀ a ∈ downAndError, a.Fails := by
    intro a ha
    simp only [downAndError, List.mem_cons, List.not_mem_nil, or_false] at ha
    rcases ha with rfl | rfl
    · exact refused_fails rfl
    · exact fun _ cache => ⟨.unknownPrefix 0x2d, rfl⟩
  refine (failed_sync_leaves_iff hfails (by decide)).2 fun k res hw => ?_
  have hnone : written downAndError k = none := by
    simp [written, downAndError, Attempt.written, wholeRanges, header, receive, ok_bind]
  rw [hnone] at hw
  cases hw

/-- The reply of two ranges breaks behind the first. The key `foo`, which was with the only node,
has none then. -/
theorem broken_reply_unroutes :
    Attempt.Fails ⟨true, true, (replyBytes twoRanges).take 44⟩ ∧
      Routes (writeAll 1 oneRange []) [0x66, 0x6f, 0x6f] (.connects (.str [0x61]) (some (.num 7000))) ∧
      Routes (syncSlots [⟨true, true, (replyBytes twoRanges).take 44⟩] (writeAll 1 oneRange [])) [0x66, 0x6f, 0x6f]
        (.error (some (notFound 12182))) ∧
      ¬ Leaves [⟨true, true, (replyBytes twoRanges).take 44⟩] (writeAll 1 oneRange []) := by
  refine ⟨(broken_reply wellFormed_twoRanges.addrs (by decide +kernel)).1, ⟨_, .refl _, by decide +kernel⟩,
    ⟨_, .refl _, by decide +kernel⟩, fun h => ?_⟩
  have hperm := h.1.mem_iff (a := (1, ⟨some 0, some 16383, some [.str [0x61], .num 7000]⟩))
  exact absurd (hperm.2 (by decide +kernel)) (by decide +kernel)

end NgxPlus.Redis3
