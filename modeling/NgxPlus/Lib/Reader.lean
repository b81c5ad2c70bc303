import NgxPlus.Lib.ByteMem
import NgxPlus.Lib.Decode

/-!
# Readers that count their bytes down

A C reader walks a pointer through a message and counts the length that is left down beside
it. Some of its reads look at that length first, some do not. `Prog` is the text of such a
reader, `Prog.run` what it computes on raw memory and `Prog.steps` the reads it makes, each
with its offset and the length it was made at.

`Prog.onList` reads the bytes of the message alone. It stops where a number or a copy needs
more bytes than there are (`beyond`): the only reads of the C reader that can leave the buffer.

* `steps_inside_iff`: all reads stay inside, and the length never wraps, exactly if the
  reading of the bytes is not `beyond`.
* `run_of_onList`: then the C reader computes what was read from the bytes.
* `onList_append`: a reading that was finished or refused on its own bytes is the same with
  more bytes behind them; one that ended inside a string (`cut`) need not be.
-/

namespace Reader

open ByteMem Decode

variable {ε α β τ : Type}

/-! ## Readers -/

inductive Prog (ε α : Type) : Type
  | ret (a : α)
  | fail (e : ε)
  /-- A big-endian number of `w` bytes. With `short = some x` the reader looks at the length
  and takes `x` where less than `w` is left; the pointer moves all the same. -/
  | num (w : Nat) (short : Option Nat) (k : Nat → Prog ε α)
  /-- A string behind its 16-bit length. -/
  | str (k : Bytes → Prog ε α)
  /-- `n` bytes. -/
  | copy (n : Nat) (k : {b : Bytes // b.length = n} → Prog ε α)
  /-- An answer from outside, such as the allocator's. -/
  | ask (k : Bool → Prog ε α)

namespace Prog

def bind : Prog ε α → (α → Prog ε β) → Prog ε β
  | ret a, f => f a
  | fail e, _ => fail e
  | num w short k, f => num w short fun n => (k n).bind f
  | str k, f => str fun b => (k b).bind f
  | copy n k, f => copy n fun b => (k b).bind f
  | ask k, f => ask fun b => (k b).bind f

instance : Monad (Prog ε) where
  pure := ret
  bind := bind

end Prog

/-! ## On raw memory -/

structure Cursor where
  p : Mem
  plen : Nat
  asks : Stream' Bool

namespace Cursor

def adv (c : Cursor) (n : Nat) : Cursor := { c with p := c.p.drop n, plen := sizeSub c.plen n }

def number (c : Cursor) (w : Nat) (short : Option Nat) : Nat :=
  if c.plen < w then short.getD (be w c.p) else be w c.p

def bytes (c : Cursor) (n : Nat) : {b : Bytes // b.length = n} := ⟨c.p.take n, Stream'.length_take n c.p⟩

/-- The length 65535 is taken for an error. -/
def string (c : Cursor) : Option Bytes :=
  if c.plen < 2 then none
  else if be 2 c.p = 65535 then none
  else if sizeSub c.plen 2 < be 2 c.p then none
  else some ((c.p.drop 2).take (be 2 c.p))

/-- The buffer `l`, `m` behind it in memory. -/
def ofBytes (l : Bytes) (m : Mem) (asks : Stream' Bool) : Cursor := ⟨l ++ₛ m, l.length, asks⟩

end Cursor

/-- `bad` is how the reader says that a string is not there. -/
def Prog.run (bad : ε) : Prog ε α → Cursor → Except ε (α × Cursor)
  | ret a, c => .ok (a, c)
  | fail e, _ => .error e
  | num w short k, c => (k (c.number w short)).run bad (c.adv w)
  | str k, c =>
    match c.string with
    | none => .error bad
    | some b => (k b).run bad (c.adv (2 + b.length))
  | copy n k, c => (k (c.bytes n)).run bad (c.adv n)
  | ask k, c => (k c.asks.head).run bad { c with asks := c.asks.tail }

/-- One read: where it starts, how many bytes it looks at, the length left before it and what
is taken off that length. -/
structure Step where
  off : Nat
  read : Nat
  plen : Nat
  consumed : Nat

/-- No byte at or behind `n` is read and the length does not wrap. -/
def Step.Inside (n : Nat) (st : Step) : Prop := st.off + st.read ≤ n ∧ st.consumed ≤ st.plen

def Cursor.stringStep (c : Cursor) (off : Nat) : Step :=
  match c.string with
  | none => ⟨off, if c.plen < 2 then 0 else 2, c.plen, 0⟩
  | some b => ⟨off, 2 + b.length, c.plen, 2 + b.length⟩

def Prog.steps : Prog ε α → Nat → Cursor → List Step
  | ret _, _, _ => []
  | fail _, _, _ => []
  | num w short k, off, c =>
    ⟨off, if c.plen < w ∧ short.isSome then 0 else w, c.plen, w⟩ ::
      (k (c.number w short)).steps (off + w) (c.adv w)
  | str k, off, c =>
    c.stringStep off ::
      match c.string with
      | none => []
      | some b => (k b).steps (off + (2 + b.length)) (c.adv (2 + b.length))
  | copy n k, off, c => ⟨off, n, c.plen, n⟩ :: (k (c.bytes n)).steps (off + n) (c.adv n)
  | ask k, off, c => (k c.asks.head).steps off { c with asks := c.asks.tail }

/-! ## On the bytes alone -/

inductive Reading (ε α : Type)
  | done (a : α) (rest : Bytes) (asks : Stream' Bool)
  /-- For a value, or by an answer. -/
  | refused (e : ε)
  /-- The bytes end inside a string. -/
  | cut
  /-- The bytes end inside a number or a copy. -/
  | beyond

/-- The number in the first `w` bytes of `l`, which has as many. -/
def beOf (w : Nat) (l : Bytes) : Nat := be w (l ++ₛ Stream'.const 0)

def Prog.onList (bad : ε) : Prog ε α → Bytes → Stream' Bool → Reading ε α
  | ret a, l, asks => .done a l asks
  | fail e, _, _ => .refused e
  | num w _ k, l, asks => if l.length < w then .beyond else (k (beOf w l)).onList bad (l.drop w) asks
  | str k, l, asks =>
    if l.length < 2 then .cut
    else if beOf 2 l = 65535 then .refused bad
    else if l.length < 2 + beOf 2 l then .cut
    else (k ((l.drop 2).take (beOf 2 l))).onList bad (l.drop (2 + beOf 2 l)) asks
  | copy n k, l, asks =>
    if h : n ≤ l.length then (k ⟨l.take n, List.length_take_of_le h⟩).onList bad (l.drop n) asks else .beyond
  | ask k, l, asks => (k asks.head).onList bad l asks.tail

namespace Reading

/-- What the C reader comes to, where that is settled by the bytes. -/
def outcome (bad : ε) (m : Mem) : Reading ε α → Option (Except ε (α × Cursor))
  | done a rest asks => some (.ok (a, .ofBytes rest m asks))
  | refused e => some (.error e)
  | cut => some (.error bad)
  | beyond => none

def Settled : Reading ε α → Prop
  | done _ _ _ | refused _ => True
  | cut | beyond => False

def append (r : Bytes) : Reading ε α → Reading ε α
  | done a rest asks => done a (rest ++ r) asks
  | x => x

end Reading

/-! ## Reads inside the buffer -/

theorem be_append_stream {k : Nat} {l : Bytes} (h : k ≤ l.length) (m m' : Mem) :
    be k (l ++ₛ m) = be k (l ++ₛ m') := by
  induction k generalizing l with
  | zero => rfl
  | succ k ih =>
    cases l with
    | nil => simp at h
    | cons x l => exact congrArg (fun n => x.toNat * 256 ^ k + n) (ih (Nat.le_of_succ_le_succ h))

theorem be_ofBytes {w : Nat} {l : Bytes} (h : w ≤ l.length) (m : Mem) : be w (l ++ₛ m) = beOf w l :=
  be_append_stream h m _

theorem beOf_append {w : Nat} {l : Bytes} (h : w ≤ l.length) (r : Bytes) : beOf w (l ++ r) = beOf w l := by
  rw [beOf, Stream'.append_append_stream]
  exact be_ofBytes h _

theorem adv_ofBytes {n : Nat} {l : Bytes} (h : n ≤ l.length) (m : Mem) (asks : Stream' Bool) :
    (Cursor.ofBytes l m asks).adv n = .ofBytes (l.drop n) m asks := by
  simp only [Cursor.adv, Cursor.ofBytes, sizeSub_of_le h, Stream'.drop_append_of_le_length _ _ _ h,
    List.length_drop]

@[simp] theorem p_ofBytes (l : Bytes) (m : Mem) (asks : Stream' Bool) : (Cursor.ofBytes l m asks).p = l ++ₛ m := rfl

@[simp] theorem plen_ofBytes (l : Bytes) (m : Mem) (asks : Stream' Bool) :
    (Cursor.ofBytes l m asks).plen = l.length := rfl

theorem number_ofBytes {w : Nat} {l : Bytes} (h : w ≤ l.length) (m : Mem) (asks : Stream' Bool)
    (short : Option Nat) : (Cursor.ofBytes l m asks).number w short = beOf w l := by
  rw [Cursor.number, plen_ofBytes, if_neg (Nat.not_lt.2 h)]
  exact be_ofBytes h m

theorem bytes_ofBytes {n : Nat} {l : Bytes} (h : n ≤ l.length) (m : Mem) (asks : Stream' Bool) :
    (Cursor.ofBytes l m asks).bytes n = ⟨l.take n, List.length_take_of_le h⟩ :=
  Subtype.ext (Stream'.take_append_of_le_length _ _ _ h)

/-- The string in front, which is all there. -/
def StringAt (l : Bytes) : Prop := 2 ≤ l.length ∧ beOf 2 l ≠ 65535 ∧ 2 + beOf 2 l ≤ l.length

theorem string_there {l : Bytes} (h : StringAt l) (m : Mem) (asks : Stream' Bool) :
    (Cursor.ofBytes l m asks).string = some ((l.drop 2).take (beOf 2 l)) := by
  obtain ⟨h2, hmax, hlen⟩ := h
  have hd : 2 + beOf 2 l - 2 ≤ (l.drop 2).length := by rw [List.length_drop]; omega
  rw [Cursor.string, plen_ofBytes, p_ofBytes, be_ofBytes h2, sizeSub_of_le h2, if_neg (by omega), if_neg hmax,
    if_neg (by omega), Stream'.drop_append_of_le_length _ _ _ h2, Stream'.take_append_of_le_length _ _ _ (by omega)]

theorem string_missing {l : Bytes} (h : ¬ StringAt l) (m : Mem) (asks : Stream' Bool) :
    (Cursor.ofBytes l m asks).string = none := by
  rw [Cursor.string, plen_ofBytes, p_ofBytes]
  by_cases h2 : l.length < 2
  · rw [if_pos h2]
  · have h2' : 2 ≤ l.length := Nat.not_lt.1 h2
    rw [if_neg h2, be_ofBytes h2', sizeSub_of_le h2']
    by_cases hmax : beOf 2 l = 65535
    · rw [if_pos hmax]
    · have hlen : l.length < 2 + beOf 2 l := by
        by_contra hlen
        exact h ⟨h2', hmax, Nat.not_lt.1 hlen⟩
      rw [if_neg hmax, if_pos (by omega)]

theorem onList_str_there {bad : ε} {k : Bytes → Prog ε α} {l : Bytes} {asks : Stream' Bool} (h : StringAt l) :
    (Prog.str k).onList bad l asks = (k ((l.drop 2).take (beOf 2 l))).onList bad (l.drop (2 + beOf 2 l)) asks := by
  obtain ⟨h2, hmax, hlen⟩ := h
  rw [Prog.onList, if_neg (by omega), if_neg hmax, if_neg (by omega)]

theorem onList_str_missing (bad : ε) (k : Bytes → Prog ε α) {l : Bytes} (asks : Stream' Bool) (h : ¬ StringAt l) :
    (Prog.str k).onList bad l asks = .cut ∨
      (2 ≤ l.length ∧ beOf 2 l = 65535 ∧ (Prog.str k).onList bad l asks = .refused bad) := by
  rw [Prog.onList]
  by_cases h2 : l.length < 2
  · exact Or.inl (if_pos h2)
  · rw [if_neg h2]
    by_cases hmax : beOf 2 l = 65535
    · exact Or.inr ⟨Nat.not_lt.1 h2, hmax, if_pos hmax⟩
    · rw [if_neg hmax]
      refine Or.inl (if_pos ?_)
      by_contra hlen
      exact h ⟨Nat.not_lt.1 h2, hmax, Nat.not_lt.1 hlen⟩

/-- Reading a string never leaves the buffer. -/
theorem stringStep_inside (l : Bytes) (m : Mem) (asks : Stream' Bool) (off : Nat) :
    ((Cursor.ofBytes l m asks).stringStep off).Inside (off + l.length) := by
  rw [Cursor.stringStep]
  by_cases h : StringAt l
  · rw [string_there h]
    obtain ⟨-, -, hlen⟩ := h
    have hb : ((l.drop 2).take (beOf 2 l)).length = beOf 2 l := by
      rw [List.length_take, List.length_drop]; omega
    show off + (2 + ((l.drop 2).take (beOf 2 l)).length) ≤ _ ∧ 2 + ((l.drop 2).take (beOf 2 l)).length ≤ _
    rw [hb]
    exact ⟨Nat.add_le_add_left hlen off, hlen⟩
  · rw [string_missing h]
    have hread : (if l.length < 2 then 0 else 2) ≤ l.length := by split <;> omega
    exact ⟨Nat.add_le_add_left hread off, Nat.zero_le _⟩

/-- Where a number or a copy is not all there, its read leaves the buffer. -/
theorem not_inside {n w : Nat} {st : Step} (hw : st.plen < w) (hc : st.consumed = w) : ¬ st.Inside n := by
  rintro ⟨-, hle⟩
  omega

/-- **Reads stay inside** exactly if no number and no copy is cut. -/
theorem steps_inside_iff (bad : ε) (P : Prog ε α) (l : Bytes) (m : Mem) (asks : Stream' Bool) (off : Nat) :
    (∀ st ∈ P.steps off (.ofBytes l m asks), st.Inside (off + l.length)) ↔ P.onList bad l asks ≠ .beyond := by
  induction P generalizing l asks off with
  | ret a => simp [Prog.steps, Prog.onList]
  | fail e => simp [Prog.steps, Prog.onList]
  | ask k ih => exact ih asks.head l asks.tail off
  | num w short k ih =>
    rw [Prog.steps, Prog.onList, List.forall_mem_cons]
    by_cases hl : l.length < w
    · rw [if_pos hl]
      exact ⟨fun h => absurd h.1 (not_inside hl rfl), fun h => absurd rfl h⟩
    · have hw : w ≤ l.length := Nat.not_lt.1 hl
      have hrest := ih (beOf w l) (l.drop w) asks (off + w)
      rw [List.length_drop, Nat.add_assoc, Nat.add_sub_cancel' hw] at hrest
      rw [if_neg hl, plen_ofBytes, if_neg fun h => hl h.1, number_ofBytes hw, adv_ofBytes hw, hrest,
        and_iff_right_iff_imp]
      intro _
      exact ⟨Nat.add_le_add_left hw off, hw⟩
  | copy n k ih =>
    rw [Prog.steps, Prog.onList, List.forall_mem_cons]
    by_cases hn : n ≤ l.length
    · have hrest := ih ⟨l.take n, List.length_take_of_le hn⟩ (l.drop n) asks (off + n)
      rw [List.length_drop, Nat.add_assoc, Nat.add_sub_cancel' hn] at hrest
      rw [dif_pos hn, bytes_ofBytes hn, adv_ofBytes hn, hrest, and_iff_right_iff_imp]
      intro _
      exact ⟨Nat.add_le_add_left hn off, hn⟩
    · rw [dif_neg hn]
      exact ⟨fun h => absurd h.1 (not_inside (Nat.not_le.1 hn) rfl), fun h => absurd rfl h⟩
  | str k ih =>
    rw [Prog.steps, List.forall_mem_cons, and_iff_right (stringStep_inside l m asks off)]
    by_cases h : StringAt l
    · rw [string_there h, onList_str_there h]
      obtain ⟨-, -, hlen⟩ := h
      have hb : ((l.drop 2).take (beOf 2 l)).length = beOf 2 l := by
        rw [List.length_take, List.length_drop]; omega
      have hrest := ih ((l.drop 2).take (beOf 2 l)) (l.drop (2 + beOf 2 l)) asks (off + (2 + beOf 2 l))
      rw [List.length_drop, Nat.add_assoc off, Nat.add_sub_cancel' hlen] at hrest
      simp only [hb, adv_ofBytes hlen]
      exact hrest
    · rw [string_missing h]
      rcases onList_str_missing bad k asks h with hk | ⟨-, -, hk⟩
      · simp [hk]
      · simp [hk]

/-- **Inside the buffer**, the memory behind it plays no part. -/
theorem run_of_onList {bad : ε} {P : Prog ε α} {l : Bytes} {m : Mem} {asks : Stream' Bool}
    {o : Except ε (α × Cursor)} (h : (P.onList bad l asks).outcome bad m = some o) :
    P.run bad (.ofBytes l m asks) = o := by
  induction P generalizing l asks with
  | ret a => exact Option.some.inj h
  | fail e => exact Option.some.inj h
  | ask k ih => exact ih asks.head h
  | num w short k ih =>
    rw [Prog.onList] at h
    by_cases hl : l.length < w
    · rw [if_pos hl] at h
      cases h
    · have hw : w ≤ l.length := Nat.not_lt.1 hl
      rw [if_neg hl] at h
      rw [Prog.run, number_ofBytes hw, adv_ofBytes hw]
      exact ih _ h
  | copy n k ih =>
    rw [Prog.onList] at h
    by_cases hn : n ≤ l.length
    · rw [dif_pos hn] at h
      rw [Prog.run, bytes_ofBytes hn, adv_ofBytes hn]
      exact ih _ h
    · rw [dif_neg hn] at h
      cases h
  | str k ih =>
    rw [Prog.run]
    by_cases hs : StringAt l
    · rw [onList_str_there hs] at h
      rw [string_there hs]
      have hlen := hs.2.2
      have hb : ((l.drop 2).take (beOf 2 l)).length = beOf 2 l := by
        rw [List.length_take, List.length_drop]; omega
      simp only [hb, adv_ofBytes hlen]
      exact ih _ h
    · rw [string_missing hs]
      rcases onList_str_missing bad k asks hs with hk | ⟨-, -, hk⟩
      · rw [hk] at h
        exact Option.some.inj h
      · rw [hk] at h
        exact Option.some.inj h

/-- More bytes behind a message that was read to a result do not change the result. -/
theorem onList_append {bad : ε} {P : Prog ε α} {l : Bytes} {asks : Stream' Bool}
    (h : (P.onList bad l asks).Settled) (r : Bytes) :
    P.onList bad (l ++ r) asks = (P.onList bad l asks).append r := by
  induction P generalizing l asks with
  | ret a => rfl
  | fail e => rfl
  | ask k ih => exact ih asks.head h
  | num w short k ih =>
    rw [Prog.onList] at h
    rw [Prog.onList, Prog.onList]
    by_cases hl : l.length < w
    · rw [if_pos hl] at h
      exact absurd h id
    · have hw : w ≤ l.length := Nat.not_lt.1 hl
      rw [if_neg hl] at h
      rw [if_neg hl, if_neg (by rw [List.length_append]; omega), beOf_append hw, List.drop_append_of_le_length hw]
      exact ih _ h
  | copy n k ih =>
    rw [Prog.onList] at h
    rw [Prog.onList, Prog.onList]
    by_cases hn : n ≤ l.length
    · have hn' : n ≤ (l ++ r).length := by rw [List.length_append]; omega
      have htake : (⟨(l ++ r).take n, List.length_take_of_le hn'⟩ : {b : Bytes // b.length = n}) =
          ⟨l.take n, List.length_take_of_le hn⟩ := Subtype.ext (List.take_append_of_le_length hn)
      rw [dif_pos hn] at h
      rw [dif_pos hn, dif_pos hn', htake, List.drop_append_of_le_length hn]
      exact ih _ h
    · rw [dif_neg hn] at h
      exact absurd h id
  | str k ih =>
    by_cases hs : StringAt l
    · rw [onList_str_there hs] at h ⊢
      obtain ⟨h2, hmax, hlen⟩ := hs
      have hs' : StringAt (l ++ r) := by
        rw [StringAt, beOf_append h2, List.length_append]
        exact ⟨by omega, hmax, by omega⟩
      rw [onList_str_there hs', beOf_append h2, List.drop_append_of_le_length h2,
        List.drop_append_of_le_length hlen, List.take_append_of_le_length (by rw [List.length_drop]; omega)]
      exact ih _ h
    · rcases onList_str_missing bad k asks hs with hk | ⟨h2, hmax, hk⟩
      · rw [hk] at h
        exact absurd h id
      · rw [hk, Prog.onList, if_neg (by rw [List.length_append]; omega), beOf_append h2, if_pos hmax]
        rfl

/-! ## Composition -/

theorem run_bind (bad : ε) (P : Prog ε α) (f : α → Prog ε β) (c : Cursor) :
    (P >>= f).run bad c = (P.run bad c >>= fun r => (f r.1).run bad r.2) := by
  show (P.bind f).run bad c = _
  induction P generalizing c with
  | ret a => rfl
  | fail e => rfl
  | num w short k ih => exact ih _ _
  | copy n k ih => exact ih _ _
  | ask k ih => exact ih _ _
  | str k ih =>
    rw [Prog.bind, Prog.run, Prog.run]
    cases c.string with
    | none => rfl
    | some b => exact ih b _

theorem length_cons_times {n : Nat} (x : α) (xs : {xs : List α // xs.length = n}) : (x :: xs.1).length = n + 1 := by
  rw [List.length_cons, xs.2]

/-- `n` items in a row, with what is carried from one to the next. -/
def Prog.times (P : τ → Prog ε (α × τ)) : (n : Nat) → τ → Prog ε ({xs : List α // xs.length = n} × τ)
  | 0, t => ret (⟨[], List.length_nil⟩, t)
  | n + 1, t => do
    let (x, t) ← P t
    let (xs, t) ← Prog.times P n t
    return (⟨x :: xs.1, length_cons_times x xs⟩, t)

end Reader
