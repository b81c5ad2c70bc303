import NgxPlus.Luashm.Recovery

/-!
# What comes back that was not there

| here | there |
| --- | --- |
| `Backed`         | the cases of the `switch` that writes `value_len` (`:448-459`) |
| `Slot`           | a record with the `value_len` that stands in the file |
| `Reader.within`  | what a round reads of the bytes read from the file (`:558-564`) |
| `NeverInvents`   | each entry recovered is one of the dictionary, and nothing behind the file is read |

The `switch` has no case for a list, so its `value_len` is what the buffer held; the reader steps
by it and copies as many bytes. A dictionary that is empty is not written at all (`:421-424`), and
the entries of the backup before it come back. A dictionary of four gigabytes is cut in the
middle of a record. `never_invents_iff` says that there is nothing else.
-/

namespace NgxPlus.Luashm

open ByteMem Mqtt Decode

/-! ## Any entry -/

/-- An entry for which `value_len` is written. -/
def Backed (e : Entry) : Prop :=
  e.valueType = luaTString ∨ e.valueType = luaTNumber ∨ e.valueType = luaTBoolean

instance (e : Entry) : Decidable (Backed e) := inferInstanceAs (Decidable (_ ∨ _ ∨ _))

/-- What a node can hold, of any type: the size of a list is not that of its node. -/
structure EntryFits (e : Entry) : Prop where
  keyLen : e.key.length ≤ 65535
  valueType : e.valueType < 256
  number : e.valueType = luaTNumber → e.value.length = 8
  boolean : e.valueType = luaTBoolean → e.value.length = 1
  len : e.key.length + e.value.length < 2 ^ 32
  size : Backed e → nodeHeader + e.key.length + e.value.length < 2 ^ 31
  expires : e.expires < 2 ^ 64
  userFlags : e.userFlags < 2 ^ 32

/-- A record and its `value_len`. -/
structure Slot extends Rec where
  valueLen : Nat
  lt : valueLen < 2 ^ 32

def Slot.header (r : Slot) : Bytes :=
  Luashm.header r.entry.valueType r.entry.key.length r.valueLen r.entry.userFlags r.entry.expires r.pad1 r.pad2

def Slot.body (r : Slot) : Bytes := r.entry.key ++ (r.entry.value ++ r.pad3)

def Slot.bytes (r : Slot) : Bytes := r.header ++ r.body

@[simp] theorem Slot.length_header (r : Slot) : r.header.length = 24 := by
  simp [header, Luashm.header, r.length1, r.length2]

@[simp] theorem Slot.length_bytes (r : Slot) :
    r.bytes.length = sizeofExt + r.entry.key.length + r.entry.value.length := by
  simp only [bytes, body, List.length_append, length_header, r.length3, sizeofExt]
  omega

/-- The length is that of the value, or what the buffer held somewhere. -/
def Slot.Written (mem : Mem) (r : Slot) : Prop :=
  (Backed r.entry → r.valueLen = r.entry.value.length) ∧ (¬ Backed r.entry → ∃ i, r.valueLen = le 4 (mem.drop i))

/-! ## What the backup writes -/

theorem extNode_slot (mem : Mem) (i : Nat) {d : Dict} {k : NodeKey} (h : EntryFits (d.entry k)) :
    ∃ r : Slot, extNode (mem.drop i) (d.kinds k) (d.zone.heap k) = r.bytes ∧ r.entry = d.entry k ∧ r.Written mem := by
  have hlen := h.len
  rw [d.length_key, d.length_value] at hlen
  have hdata := d.key_append_value k
  let old := mem.drop i
  have hlen' : ((d.zone.heap k).keyLen + (d.zone.heap k).valueLen) % 2 ^ 32 =
      (d.zone.heap k).keyLen + (d.zone.heap k).valueLen := Nat.mod_eq_of_lt hlen
  let v := if Backed (d.entry k) then (d.entry k).value.length else le 4 (old.drop 4)
  have hv : v < 2 ^ 32 := by
    simp only [v]
    split
    · rw [d.length_value]
      omega
    · exact le_lt 4 _
  refine ⟨⟨⟨d.entry k, (old.drop 1).take 1, (old.drop 12).take 4,
    (old.drop (24 + ((d.zone.heap k).keyLen + (d.zone.heap k).valueLen))).take 8, by simp, by simp, by simp⟩, v, hv⟩,
    ?_, rfl, fun hb => if_pos hb, fun hb => ⟨i + 4, ?_⟩⟩
  · have hfour : (if (d.kinds k).valueType = luaTString then toLe 4 (d.zone.heap k).valueLen
        else if (d.kinds k).valueType = luaTNumber then toLe 4 8
        else if (d.kinds k).valueType = luaTBoolean then toLe 4 1
        else (old.drop 4).take 4) = toLe 4 v := by
      by_cases hs : (d.kinds k).valueType = luaTString
      · rw [if_pos hs, ← d.length_value]
        simp only [v, if_pos (show Backed (d.entry k) from Or.inl hs)]
      rw [if_neg hs]
      by_cases hn : (d.kinds k).valueType = luaTNumber
      · rw [if_pos hn]
        simp only [v, if_pos (show Backed (d.entry k) from Or.inr (Or.inl hn)), h.number hn]
      rw [if_neg hn]
      by_cases ht : (d.kinds k).valueType = luaTBoolean
      · rw [if_pos ht]
        simp only [v, if_pos (show Backed (d.entry k) from Or.inr (Or.inr ht)), h.boolean ht]
      · have hb : ¬ Backed (d.entry k) := not_or.2 ⟨hs, not_or.2 ⟨hn, ht⟩⟩
        rw [if_neg ht, ← toLe_le]
        simp only [v, if_neg hb]
    simp only [extNode, hlen', Slot.bytes, Slot.header, Slot.body, Luashm.header, List.append_assoc, d.length_key]
    rw [← hdata, hfour, List.append_assoc]
    rfl
  · simp only [v, if_neg hb, old, Stream'.drop_drop]

/-! ## What a round reads -/

/-- The header, and for a record that lives the key and the value. -/
def Reader.within (now : Nat) (s : Reader) : Prop :=
  let ext := ExtNode.read s.rest
  24 + (if lives ext.expires now then ext.keyLen + ext.valueLen else 0) ≤ s.left

section Round

variable {r : Slot} (h : EntryFits r.entry) (bs : Bytes) (m : Mem)

theorem take_bytes {k : Nat} (hk : 24 ≤ k) :
    (r.bytes ++ bs).take k ++ₛ m = r.header ++ₛ ((r.body ++ bs).take (k - 24) ++ₛ m) := by
  rw [Slot.bytes, List.append_assoc, List.take_append, List.take_of_length_le (by simpa using hk), r.length_header,
    Stream'.append_append_stream]

include h in
theorem read_slot {k : Nat} (hk : 24 ≤ k) :
    ExtNode.read ((r.bytes ++ bs).take k ++ₛ m) =
      ⟨r.entry.valueType, r.entry.key.length, r.valueLen, r.entry.userFlags, r.entry.expires,
        (r.body ++ bs).take (k - 24) ++ₛ m⟩ := by
  have hkey := h.keyLen
  have htype := h.valueType
  have hexp := h.expires
  have hflags := h.userFlags
  have hlen := r.lt
  rw [take_bytes bs m hk, Slot.header, read_header _ _ _ _ _ r.length1 r.length2]
  rw [Nat.mod_eq_of_lt (by omega), Nat.mod_eq_of_lt (by omega), Nat.mod_eq_of_lt (by omega),
    Nat.mod_eq_of_lt (by omega), Nat.mod_eq_of_lt (by omega)]

/-- Behind the record are the others, as far as they are there. -/
theorem drop_slot (k : Nat) :
    ∃ m', ((r.bytes ++ bs).take k ++ₛ m).drop r.bytes.length = bs.take (k - r.bytes.length) ++ₛ m' := by
  by_cases hk : r.bytes.length ≤ k
  · refine ⟨m, ?_⟩
    rw [List.take_append, List.take_of_length_le hk, Stream'.append_append_stream, drop_append_of_eq _ _ rfl]
  · refine ⟨((r.bytes ++ bs).take k ++ₛ m).drop r.bytes.length, ?_⟩
    rw [Nat.sub_eq_zero_of_le (by omega), List.take_zero]
    rfl

variable {k : Nat} (hk : 24 + r.entry.key.length + r.entry.value.length ≤ k) (hval : r.valueLen = r.entry.value.length)
include hk h hval

/-- A record that is there up to its value is read as what it is. -/
theorem read_slot_entry : (ExtNode.read ((r.bytes ++ bs).take k ++ₛ m)).entry = r.entry := by
  rw [read_slot h bs m (by omega)]
  obtain ⟨x, hx⟩ : ∃ x : Bytes, (r.body ++ bs).take (k - 24) = r.entry.key ++ (r.entry.value ++ x) := by
    refine ⟨(r.pad3 ++ bs).take (k - 24 - r.entry.key.length - r.entry.value.length), ?_⟩
    rw [Slot.body, List.append_assoc, List.append_assoc, List.take_append, List.take_of_length_le (by omega),
      List.take_append, List.take_of_length_le (by omega)]
  simp only [ExtNode.entry, hx, hval, Stream'.append_append_stream, take_append_of_eq _ _ rfl,
    drop_append_of_eq _ _ rfl]

theorem within_slot (now : Nat) (d : Dict) : Reader.within now ⟨d, (r.bytes ++ bs).take k ++ₛ m, k⟩ := by
  simp only [Reader.within, read_slot h bs m (show 24 ≤ k by omega), hval]
  split <;> omega

theorem round_slot (hb : Backed r.entry) (now : Nat) (alloc : Nat → Nat → Bool) {d : Dict} (hd : d.Sound) :
    ∃ d' m', round now alloc ⟨d, (r.bytes ++ bs).take k ++ₛ m, k⟩ =
        .ok ⟨d', bs.take (k - r.bytes.length) ++ₛ m', k - r.bytes.length⟩ ∧ d'.Sound ∧
      ∀ e ∈ d'.entries, e ∈ d.entries ∨ e = r.entry := by
  have hread := read_slot h bs m (show 24 ≤ k by omega)
  have hentry := read_slot_entry h bs m hk hval
  obtain ⟨m', hm'⟩ := drop_slot bs m k (r := r)
  have hstride : (ExtNode.read ((r.bytes ++ bs).take k ++ₛ m)).stride = r.bytes.length := by
    rw [hread, ExtNode.stride, hval, r.length_bytes]
  have hlen : (ExtNode.read ((r.bytes ++ bs).take k ++ₛ m)).valueLen < 2 ^ 31 := by
    have := h.size hb
    rw [hread]
    simp only
    omega
  have hrec : ∃ d', recoverIf now (alloc d.zone.next) d (ExtNode.read ((r.bytes ++ bs).take k ++ₛ m)) = .ok d' ∧
      d'.Sound ∧ ∀ e ∈ d'.entries, e ∈ d.entries ∨ e = r.entry := by
    rw [recoverIf]
    split
    · obtain ⟨d', hr, hs, es, hsub, hent⟩ := recover_spec hd hlen now (alloc d.zone.next)
      rw [hentry] at hent
      refine ⟨d', hr, hs, fun e he => ?_⟩
      rcases hent with hent | hent <;> rw [hent] at he
      · exact Or.inl (hsub.subset he)
      · rcases List.mem_cons.1 he with rfl | he
        · exact Or.inr rfl
        · exact Or.inl (hsub.subset he)
    · exact ⟨d, rfl, hd, fun e he => Or.inl he⟩
  obtain ⟨d', hr, hs, hent⟩ := hrec
  refine ⟨d', m', ?_, hs, hent⟩
  rw [round]
  simp only [hr, ok_bind, hstride, hm']

end Round

/-! ## Where the file is clean -/

/-- Each record that the first `k` bytes reach is there up to its value, with its length. -/
def Clean : List Entry → Nat → Prop
  | [], _ => True
  | e :: es, k => k = 0 ∨ Backed e ∧ 24 + e.key.length + e.value.length ≤ k ∧
      Clean es (k - (sizeofExt + e.key.length + e.value.length))

/-- Entries from before, or with the key, value and type of one of `src`. -/
def From (old src : List Entry) (e : Entry) : Prop :=
  e ∈ old ∨ ∃ x ∈ src, x.key = e.key ∧ x.value = e.value ∧ x.valueType = e.valueType

/-- After any number of rounds: no fault, the next round within the file, an end in time, and no
entry from elsewhere. -/
def Loops (now : Nat) (alloc : Nat → Nat → Bool) (src : List Entry) (s₀ : Reader) : Prop :=
  ∀ fuel, ∃ s, loop more (round now alloc) fuel s₀ = .ok s ∧ (more s = true → s.within now) ∧
    (s₀.left ≤ fuel → more s = false) ∧ ∀ e ∈ s.dict.entries, From s₀.dict.entries src e

theorem loops_done (now : Nat) (alloc : Nat → Nat → Bool) (src : List Entry) {s : Reader} (h : s.left = 0) :
    Loops now alloc src s := by
  have hm : more s = false := by simp [more, h]
  exact fun fuel => ⟨s, loop_stop hm fuel, fun hmore => absurd hmore (by simp [hm]), fun _ => hm, fun e he => Or.inl he⟩

section Records

variable {mem : Mem} {slots : List Slot} (hfits : ∀ r ∈ slots, EntryFits r.entry) (hw : ∀ r ∈ slots, r.Written mem)
  {k : Nat} (hk : k ≤ (slots.flatMap Slot.bytes).length) (now : Nat) (alloc : Nat → Nat → Bool) (m : Mem)
include hfits hw hk

theorem loops_clean (hclean : Clean (slots.map (·.entry)) k) {src : List Entry} (hsrc : ∀ r ∈ slots, r.entry ∈ src)
    {d : Dict} (hd : d.Sound) : Loops now alloc src ⟨d, (slots.flatMap Slot.bytes).take k ++ₛ m, k⟩ := by
  induction slots generalizing k d m with
  | nil => exact loops_done now alloc src (Nat.le_zero.1 hk)
  | cons r slots ih =>
    rcases hclean with h0 | ⟨hb, hfit, hclean⟩
    · exact loops_done now alloc src h0
    have hr := hfits r List.mem_cons_self
    have hval := (hw r List.mem_cons_self).1 hb
    have hmore : more ⟨d, ((r :: slots).flatMap Slot.bytes).take k ++ₛ m, k⟩ = true := by
      simp only [more, decide_eq_true_eq]
      omega
    rw [← r.length_bytes] at hclean
    obtain ⟨d', m', hround, hs, hent⟩ :=
      round_slot hr (slots.flatMap Slot.bytes) m hfit hval hb now alloc hd
    rw [List.flatMap_cons, List.length_append] at hk
    have hnext := ih (fun x hx => hfits x (List.mem_cons_of_mem _ hx)) (fun x hx => hw x (List.mem_cons_of_mem _ hx))
      (k := k - r.bytes.length) (by omega) m' hclean (fun x hx => hsrc x (List.mem_cons_of_mem _ hx)) hs
    intro fuel
    cases fuel with
    | zero =>
      refine ⟨_, rfl, fun _ => within_slot hr (slots.flatMap Slot.bytes) m hfit hval now d, fun h0 => ?_,
        fun e he => Or.inl he⟩
      simp only at h0
      omega
    | succ fuel =>
      obtain ⟨s, hloop, hwithin, hend, hfrom⟩ := hnext fuel
      refine ⟨s, ?_, hwithin, fun hle => hend ?_, fun e he => ?_⟩
      · rw [loop_more hmore, List.flatMap_cons, hround]
        exact hloop
      · have := r.length_bytes
        rw [sizeofExt] at this
        simp only at hle ⊢
        omega
      · rcases hfrom e he with he | he
        · rcases hent e he with he | rfl
          · exact Or.inl he
          · exact Or.inr ⟨_, hsrc r List.mem_cons_self, rfl, rfl, rfl⟩
        · exact Or.inr he

end Records

/-! ## Where it is not -/

/-- A buffer that held no zero bit. -/
def ones : Mem := Stream'.const 0xff

theorem le_ones (i : Nat) : le 4 (ones.drop i) = 2 ^ 32 - 1 := by
  rw [ones, Stream'.drop_const]
  rfl

/-- A reader that stays within the file found it clean: a length from such a buffer leads out. -/
theorem clean_of_within {slots : List Slot} (hfits : ∀ r ∈ slots, EntryFits r.entry) (hw : ∀ r ∈ slots, r.Written ones)
    {now : Nat} (hlives : ∀ r ∈ slots, lives r.entry.expires now = true) {k : Nat} (hk32 : k < 2 ^ 32)
    (alloc : Nat → Nat → Bool) (m : Mem) {d : Dict} (hd : d.Sound)
    (h : ∀ fuel, ∃ s, loop more (round now alloc) fuel ⟨d, (slots.flatMap Slot.bytes).take k ++ₛ m, k⟩ = .ok s ∧
      (more s = true → s.within now)) :
    Clean (slots.map (·.entry)) k := by
  induction slots generalizing k d m with
  | nil => trivial
  | cons r slots ih =>
    by_cases h0 : k = 0
    · exact Or.inl h0
    have hr := hfits r List.mem_cons_self
    have hmore : more ⟨d, ((r :: slots).flatMap Slot.bytes).take k ++ₛ m, k⟩ = true := by
      simp only [more, decide_eq_true_eq]
      omega
    have hread : 24 + (r.entry.key.length + r.valueLen) ≤ k := by
      obtain ⟨s, hs, hwithin⟩ := h 0
      obtain rfl := Except.ok.inj hs
      have hin := hwithin hmore
      simp only [Reader.within, List.flatMap_cons] at hin
      rw [read_slot hr (slots.flatMap Slot.bytes) m (by omega)] at hin
      simpa only [hlives r List.mem_cons_self, if_true] using hin
    have hb : Backed r.entry := by
      by_contra hb
      obtain ⟨i, hi⟩ := (hw r List.mem_cons_self).2 hb
      rw [le_ones] at hi
      omega
    have hval := (hw r List.mem_cons_self).1 hb
    have hfit : 24 + r.entry.key.length + r.entry.value.length ≤ k := by omega
    refine Or.inr ⟨hb, hfit, ?_⟩
    obtain ⟨d', m', hround, hs, -⟩ := round_slot hr (slots.flatMap Slot.bytes) m hfit hval hb now alloc hd
    rw [← r.length_bytes]
    refine ih (fun x hx => hfits x (List.mem_cons_of_mem _ hx)) (fun x hx => hw x (List.mem_cons_of_mem _ hx))
      (fun x hx => hlives x (List.mem_cons_of_mem _ hx)) (by omega) m' hs fun fuel => ?_
    obtain ⟨s, hs, hwithin⟩ := h (fuel + 1)
    rw [loop_more hmore, List.flatMap_cons, hround] at hs
    exact ⟨s, hs, hwithin⟩

/-! ## The file -/

section File

variable {d : Dict} (hfits : ∀ e ∈ d.entries, EntryFits e) (hne : d.entries ≠ []) (mem : Mem) (t₁ : Nat) (old : Bytes)
include hfits hne

theorem backup_slots :
    ∃ slots : List Slot, slots.map (·.entry) = (d.entries.filter (fun e => lives e.expires t₁)).reverse ∧
      (∀ r ∈ slots, r.Written mem) ∧ 4 + (slots.flatMap Slot.bytes).length = serialisedSize d t₁ ∧
      backup mem t₁ d old =
        ((if serialisedSize d t₁ % 2 ^ 32 > 4 then toLe 4 (serialisedSize d t₁ % 2 ^ 32) else mem.take 4) ++
          slots.flatMap Slot.bytes).take (serialisedSize d t₁ % 2 ^ 32) := by
  refine backup_encoded Slot.length_bytes hne mem t₁ (fun k hk i => ?_) old
  exact extNode_slot mem i (hfits _ (List.mem_map_of_mem hk))

end File

theorem start_short {readMax size : Nat} (mem : Mem) {file : Bytes} (h : min file.length (min size readMax) ≤ 4) :
    (start readMax size mem file).2 = 0 := by
  simp only [start]
  generalize min file.length (min size readMax) = n at h
  split
  · split
    · omega
    · split <;> omega
  · rfl

/-- A length that is not that of what was read stops the reader. -/
theorem start_long {readMax size c : Nat} (mem : Mem) (bs : Bytes) (h4 : 4 ≤ readMax) (hc : c < 2 ^ 32)
    (hlen : c ≤ 4 + bs.length) (hsize : c ≤ size) (hread : readMax < c) :
    (start readMax size mem ((toLe 4 c ++ bs).take c)).2 = 0 := by
  have hn : min ((toLe 4 c ++ bs).take c).length (min size readMax) = readMax := by
    rw [List.length_take, List.length_append, length_toLe]
    omega
  simp only [start, hn, List.take_take, Nat.min_eq_left (le_of_lt hread), le_take hc h4]
  rw [if_neg (show c ≠ readMax by omega), if_pos hread, Nat.zero_sub, ite_self]

theorem start_whole {readMax size c : Nat} (mem : Mem) (bs : Bytes) (hc : c < 2 ^ 32) (hc4 : 4 < c)
    (hlen : c ≤ 4 + bs.length) (hsize : c ≤ size) (hread : c ≤ readMax) :
    start readMax size mem ((toLe 4 c ++ bs).take c) = (bs.take (c - 4) ++ₛ mem.drop c, c - 4) := by
  have hn : min ((toLe 4 c ++ bs).take c).length (min size readMax) = c := by
    rw [List.length_take, List.length_append, length_toLe]
    omega
  simp only [start, hn, List.take_take, Nat.min_self, le_take hc (le_of_lt hc4), drop_take (le_of_lt hc4),
    if_pos (show 0 < c by omega), if_true]

/-! ## Nothing is invented -/

/-- A recovery at any later time, into any dictionary, from what a backup at `t₁` left of any file. -/
def NeverInvents (readMax size : Nat) (d : Dict) (t₁ : Nat) : Prop :=
  ∀ t₂, t₁ ≤ t₂ → ∀ (mem mem' : Mem) (old : Bytes) (alloc : Nat → Nat → Bool) (d₀ : Dict), d₀.Sound →
    Loops t₂ alloc d.entries (reader readMax size mem' (backup mem t₁ d old) d₀) ∧
    ∃ r, processInit readMax size mem' (backup mem t₁ d old) t₂ alloc d₀ = .ok r ∧
      ∀ e ∈ r.entries, From d₀.entries d.entries e

/-- The records that are read from the file are clean. -/
def FileClean (readMax : Nat) (d : Dict) (t₁ : Nat) : Prop :=
  serialisedSize d t₁ % 2 ^ 32 ≤ readMax →
    Clean (d.entries.filter fun e => lives e.expires t₁).reverse (serialisedSize d t₁ % 2 ^ 32 - 4)

theorem clean_zero (es : List Entry) : Clean es 0 := by
  cases es with
  | nil => trivial
  | cons e es => exact Or.inl rfl

theorem clean_iff {es : List Entry} {k : Nat}
    (hk : k = (es.map fun e => sizeofExt + e.key.length + e.value.length).sum) :
    Clean es k ↔ ∀ e ∈ es, Backed e := by
  induction es generalizing k with
  | nil => exact ⟨fun _ _ he => absurd he List.not_mem_nil, fun _ => trivial⟩
  | cons e es ih =>
    rw [List.map_cons, List.sum_cons, sizeofExt] at hk
    rw [Clean, List.forall_mem_cons, ih (by rw [sizeofExt]; omega)]
    constructor
    · rintro (h0 | ⟨hb, -, h⟩)
      · omega
      · exact ⟨hb, h⟩
    · exact fun h => Or.inr ⟨h.1, by omega, h.2⟩

/-- A file that holds the whole dictionary is clean where each entry in it is of a type that is
written. -/
theorem fileClean_iff {readMax : Nat} {d : Dict} {t₁ : Nat} (hlt : serialisedSize d t₁ < 2 ^ 32)
    (hread : serialisedSize d t₁ ≤ readMax) :
    FileClean readMax d t₁ ↔ ∀ e ∈ d.entries, lives e.expires t₁ = true → Backed e := by
  have hk : serialisedSize d t₁ - 4 = ((d.entries.filter fun e => lives e.expires t₁).reverse.map
      fun e => sizeofExt + e.key.length + e.value.length).sum := by
    rw [List.map_reverse, List.sum_reverse, serialisedSize, Nat.add_sub_cancel_left]
  rw [FileClean, Nat.mod_eq_of_lt hlt, clean_iff hk]
  simp only [List.mem_reverse, List.mem_filter, and_imp]
  exact ⟨fun h => h hread, fun h _ => h⟩

theorem Loops.processInit {readMax size : Nat} {mem : Mem} {file : Bytes} {now : Nat} {alloc : Nat → Nat → Bool}
    {src : List Entry} {d : Dict} (h : Loops now alloc src (reader readMax size mem file d)) :
    ∃ r, Luashm.processInit readMax size mem file now alloc d = .ok r ∧ ∀ e ∈ r.entries, From d.entries src e := by
  obtain ⟨fuel, -, hp⟩ := processInit_reader readMax size mem file now alloc d
  obtain ⟨s, hs, -, -, hfrom⟩ := h fuel
  rw [hp, hs]
  exact ⟨s.dict, rfl, hfrom⟩

section Exactly

variable {readMax size : Nat} {d : Dict} {t₁ : Nat}

/-- The backup before the last one comes back. -/
theorem not_neverInvents_nil (hread : 64 ≤ readMax) (hsize : 64 ≤ size) (hnil : d.entries = []) :
    ¬ NeverInvents readMax size d t₁ := by
  intro h
  let e : Entry := ⟨[0x61], [1], luaTString, 0, 0⟩
  have hok : EntryOk e := ⟨by decide, Or.inl rfl, by decide, by decide, by decide⟩
  obtain ⟨hd', hent⟩ : (ofEntries [e]).Ok ∧ (ofEntries [e]).entries = [e] :=
    ofEntries_spec (by simpa using hok) (by simp) (by simp [e, lives])
  have hfilter (t : Nat) : [e].filter (fun e => lives e.expires t) = [e] := rfl
  have hser : serialisedSize (ofEntries [e]) t₁ = 38 := by
    rw [serialisedSize, hent, hfilter]
    rfl
  have hne : (ofEntries [e]).entries ≠ [] := by
    rw [hent]
    simp
  have hs : serialisedSize (ofEntries [e]) t₁ ≤ size := by omega
  have hm : serialisedSize (ofEntries [e]) t₁ ≤ readMax := by omega
  have halloc : ∀ i j : Nat, (fun _ _ => true : Nat → Nat → Bool) i j = true := fun _ _ => rfl
  obtain ⟨r, hr, -, hback⟩ := recover_backup hd' hne hs hm (by omega) t₁ ones ones [] halloc blank (fun _ => ⟨0, 0⟩)
  obtain ⟨-, r', hr', hfrom⟩ := h t₁ le_rfl ones ones (backup ones t₁ (ofEntries [e]) []) (fun _ _ => true) _
    (Dict.sound_init blank fun _ => ⟨0, 0⟩)
  have hq : d.zone.lruQueue = [] := List.map_eq_nil_iff.1 hnil
  rw [backup.eq_def ones t₁ d, if_pos hq, hr] at hr'
  obtain rfl := Except.ok.inj hr'
  have he : e ∈ r.entries := by
    rw [hback, hent]
    exact List.mem_singleton.2 rfl
  rcases hfrom e he with he | ⟨x, hx, -⟩
  · exact absurd he List.not_mem_nil
  · rw [hnil] at hx
    exact absurd hx List.not_mem_nil

theorem fileClean_of_neverInvents (hfits : ∀ e ∈ d.entries, EntryFits e) (hne : d.entries ≠ [])
    (hsize : serialisedSize d t₁ ≤ size) (h : NeverInvents readMax size d t₁) : FileClean readMax d t₁ := by
  intro hread
  have hc : serialisedSize d t₁ % 2 ^ 32 < 2 ^ 32 := Nat.mod_lt _ (by decide)
  have hcT : serialisedSize d t₁ % 2 ^ 32 ≤ serialisedSize d t₁ := Nat.mod_le ..
  by_cases h4 : serialisedSize d t₁ % 2 ^ 32 > 4
  · obtain ⟨slots, hslots, hw, hlen, hfile⟩ := backup_slots hfits hne ones t₁ []
    have hmem : ∀ r ∈ slots, r.entry ∈ d.entries ∧ lives r.entry.expires t₁ = true := by
      intro r hr
      have he : r.entry ∈ slots.map (·.entry) := List.mem_map_of_mem hr
      rwa [hslots, List.mem_reverse, List.mem_filter] at he
    obtain ⟨hloops, -⟩ := h t₁ le_rfl ones ones [] (fun _ _ => true) _ (Dict.sound_init blank fun _ => ⟨0, 0⟩)
    rw [if_pos h4] at hfile
    rw [hfile, reader, start_whole ones _ hc h4 (by omega) (by omega) hread] at hloops
    rw [← hslots]
    have hinit := Dict.sound_init blank fun _ => ⟨0, 0⟩
    refine clean_of_within (fun r hr => hfits _ (hmem r hr).1) hw (fun r hr => (hmem r hr).2) (by omega)
      (fun _ _ => true) (ones.drop (serialisedSize d t₁ % 2 ^ 32)) hinit fun fuel => ?_
    obtain ⟨s, hs, hwithin, -⟩ := hloops fuel
    exact ⟨s, hs, hwithin⟩
  · rw [Nat.sub_eq_zero_of_le (by omega)]
    exact clean_zero _

theorem neverInvents_of_fileClean (hfits : ∀ e ∈ d.entries, EntryFits e) (hne : d.entries ≠ [])
    (hread : 64 ≤ readMax) (hsize : serialisedSize d t₁ ≤ size) (h : FileClean readMax d t₁) :
    NeverInvents readMax size d t₁ := by
  intro t₂ _ mem mem' old alloc d₀ hd₀
  suffices hl : Loops t₂ alloc d.entries (reader readMax size mem' (backup mem t₁ d old) d₀) from ⟨hl, hl.processInit⟩
  have hc : serialisedSize d t₁ % 2 ^ 32 < 2 ^ 32 := Nat.mod_lt _ (by decide)
  have hcT : serialisedSize d t₁ % 2 ^ 32 ≤ serialisedSize d t₁ := Nat.mod_le ..
  obtain ⟨slots, hslots, hw, hlen, hfile⟩ := backup_slots hfits hne mem t₁ old
  have hmem : ∀ r ∈ slots, r.entry ∈ d.entries := by
    intro r hr
    have he : r.entry ∈ slots.map (·.entry) := List.mem_map_of_mem hr
    rw [hslots, List.mem_reverse] at he
    exact List.mem_of_mem_filter he
  by_cases h4 : serialisedSize d t₁ % 2 ^ 32 > 4
  · rw [if_pos h4] at hfile
    by_cases hcut : readMax < serialisedSize d t₁ % 2 ^ 32
    · refine loops_done _ _ _ ?_
      rw [hfile]
      exact start_long mem' _ (by omega) hc (by omega) (by omega) hcut
    · have hclean := h (not_lt.1 hcut)
      rw [← hslots] at hclean
      rw [hfile, reader, start_whole mem' _ hc h4 (by omega) (by omega) (not_lt.1 hcut)]
      exact loops_clean (fun r hr => hfits _ (hmem r hr)) hw (by omega) t₂ alloc _ hclean hmem hd₀
  · refine loops_done _ _ _ (start_short mem' ?_)
    have hshort : (backup mem t₁ d old).length ≤ serialisedSize d t₁ % 2 ^ 32 := by
      rw [hfile]
      exact List.length_take_le ..
    omega

/-- **Nothing is invented exactly where the dictionary is not empty and the file is clean.** -/
theorem never_invents_iff (hfits : ∀ e ∈ d.entries, EntryFits e) (hread : 64 ≤ readMax) (h64 : 64 ≤ size)
    (hsize : serialisedSize d t₁ ≤ size) :
    NeverInvents readMax size d t₁ ↔ d.entries ≠ [] ∧ FileClean readMax d t₁ := by
  constructor
  · intro h
    have hne : d.entries ≠ [] := fun hnil => not_neverInvents_nil hread h64 hnil h
    exact ⟨hne, fileClean_of_neverInvents hfits hne hsize h⟩
  · rintro ⟨hne, h⟩
    exact neverInvents_of_fileClean hfits hne hread hsize h

end Exactly

theorem never_invents_oneOfEach : NeverInvents 0x7ffff000 131072 (ofEntries oneOfEach) 1000 := by
  have hent := oneOfEach_ok.2
  have hsize := serialisedSize_oneOfEach
  have hfits : ∀ e ∈ (ofEntries oneOfEach).entries, EntryFits e := by
    rw [hent]
    intro e he
    simp only [oneOfEach, List.reverse_cons, List.reverse_nil, List.nil_append, List.cons_append, List.mem_cons,
      List.not_mem_nil, or_false] at he
    rcases he with rfl | rfl | rfl <;>
      exact ⟨by decide, by decide, by decide, by decide, by decide, by decide, by decide, by decide⟩
  have hclean : FileClean 0x7ffff000 (ofEntries oneOfEach) 1000 := by
    rw [fileClean_iff (by rw [hsize]; decide) (by rw [hsize]; decide), hent]
    decide
  exact (never_invents_iff hfits (by decide) (by decide) (by rw [hsize]; decide)).2 ⟨by rw [hent]; decide, hclean⟩

/-- A list of two elements. -/
def listEntry : Entry := ⟨[0x71], [0, 0], 5, 0, 0⟩

/-- A dictionary with one list, and an empty one. -/
theorem invented_from_list :
    (∀ e ∈ ((Dict.init blank fun _ => ⟨0, 0⟩).add listEntry).entries, EntryFits e) ∧
      ¬ NeverInvents 0x7ffff000 131072 ((Dict.init blank fun _ => ⟨0, 0⟩).add listEntry) 0 ∧
      ¬ NeverInvents 0x7ffff000 131072 (.init blank fun _ => ⟨0, 0⟩) 0 := by
  have hent : ((Dict.init blank fun _ => ⟨0, 0⟩).add listEntry).entries = [listEntry] :=
    Dict.entries_add (inv_init blank).wf
  have hfits : ∀ e ∈ ((Dict.init blank fun _ => ⟨0, 0⟩).add listEntry).entries, EntryFits e := by
    rw [hent, List.forall_mem_singleton]
    exact ⟨by decide, by decide, by decide, by decide, by decide, by decide, by decide, by decide⟩
  have hsize : serialisedSize ((Dict.init blank fun _ => ⟨0, 0⟩).add listEntry) 0 = 39 := by
    rw [serialisedSize, hent]
    decide
  refine ⟨hfits, fun h => ?_, not_neverInvents_nil (by decide) (by decide) rfl⟩
  have hclean := fileClean_of_neverInvents hfits (by rw [hent]; decide) (by rw [hsize]; decide) h
  rw [fileClean_iff (by rw [hsize]; decide) (by rw [hsize]; decide), hent] at hclean
  exact absurd hclean (by decide)

end NgxPlus.Luashm
