import Mathlib.Data.List.Nodup
import NgxPlus.Socks5.Relay

/-!
# The SOCKS5 relay: chains and the send chain

`Covers bufs p c q`: the bufs of the chain `c` hold what lies between `p` and `q`, one behind the
other, and bufs without data come last. That is what `send_chain` relies on when it gathers the
bytes of a chain, and `SentTo` is what it leaves: the first `n` bytes are gone, and the chain is
shorter by the bufs that are empty now.
-/

namespace NgxPlus.Socks5.Relay

open ByteMem

/-! ## Chains over a buffer -/

/-- A buf without data. -/
def Buf.Idle (b : Buf) : Prop := b.temporary = false ∧ b.flush = true

def Covers (bufs : Nat → Buf) : Nat → Chain → Nat → Prop
  | p, [], q => p = q
  | p, i :: c, q =>
    ((bufs i).temporary = true ∧ (bufs i).pos = p ∧ p < (bufs i).last ∧ Covers bufs (bufs i).last c q) ∨
      ((bufs i).Idle ∧ p = q ∧ Covers bufs q c q)

/-- The bytes of a chain. -/
def content (bufs : Nat → Buf) (mem : Mem) (c : Chain) : Bytes :=
  c.flatMap fun i => if (bufs i).temporary then seg mem (bufs i).pos (bufs i).last else []

/-- The first buf of the chain still has data. -/
def FrontFull (bufs : Nat → Buf) (c : Chain) : Prop := ∀ i ∈ c.head?, (bufs i).size ≠ 0

theorem Buf.Idle.size {b : Buf} (h : b.Idle) : b.size = 0 := by
  simp [Buf.size, h.1]

theorem Buf.Idle.special {b : Buf} (h : b.Idle) : b.special = true := by
  simp [Buf.special, h.1, h.2]

theorem size_of_temporary {b : Buf} (h : b.temporary = true) : b.size = b.last - b.pos := by
  simp [Buf.size, h]

theorem special_of_temporary {b : Buf} (h : b.temporary = true) : b.special = false := by
  simp [Buf.special, h]

section Covers

variable {bufs bufs' : Nat → Buf} {p q : Nat} {c : Chain}

theorem Covers.le (h : Covers bufs p c q) : p ≤ q := by
  induction c generalizing p with
  | nil => exact le_of_eq h
  | cons i c ih =>
    rcases h with ⟨-, -, hlt, hc⟩ | ⟨-, rfl, -⟩
    · have := ih hc
      omega
    · exact le_rfl

theorem Covers.congr (h : Covers bufs p c q) (hb : ∀ i ∈ c, bufs' i = bufs i) : Covers bufs' p c q := by
  induction c generalizing p with
  | nil => exact h
  | cons i c ih =>
    have hc : ∀ j ∈ c, bufs' j = bufs j := fun j hj => hb j (List.mem_cons_of_mem _ hj)
    unfold Covers
    rw [hb i List.mem_cons_self]
    rcases h with ⟨ht, hp, hlt, h⟩ | ⟨hi, rfl, h⟩
    · exact Or.inl ⟨ht, hp, hlt, ih h hc⟩
    · exact Or.inr ⟨hi, rfl, ih h hc⟩

/-- The chain holds what lies between its ends. -/
theorem Covers.content_eq (h : Covers bufs p c q) (mem : Mem) : content bufs mem c = seg mem p q := by
  induction c generalizing p with
  | nil =>
    obtain rfl : p = q := h
    simp [content]
  | cons i c ih =>
    rw [content, List.flatMap_cons]
    rcases h with ⟨ht, rfl, hlt, h⟩ | ⟨hi, rfl, h⟩
    · rw [if_pos ht, ← seg_append mem hlt.le h.le]
      exact congrArg _ (ih h)
    · rw [if_neg (by simp [hi.1])]
      exact (ih h).trans (by simp)

/-- Nothing is left between the ends: the bufs are without data. -/
theorem Covers.idle (h : Covers bufs q c q) : ∀ i ∈ c, (bufs i).Idle := by
  induction c with
  | nil => simp
  | cons i c ih =>
    rcases h with ⟨-, -, hlt, h⟩ | ⟨hi, -, h⟩
    · have := h.le
      omega
    · exact List.forall_mem_cons.2 ⟨hi, ih h⟩

theorem Covers.eq_nil (h : Covers bufs q c q) (hf : FrontFull bufs c) : c = [] := by
  cases c with
  | nil => rfl
  | cons i c => exact absurd (h.idle i List.mem_cons_self).size (hf i rfl)

/-- A buf that is not empty is not special; one that is special has no data. -/
theorem Covers.zeroSize (h : Covers bufs p c q) : ∀ i ∈ c, (bufs i).size = 0 → (bufs i).special = true := by
  induction c generalizing p with
  | nil => simp
  | cons i c ih =>
    rcases h with ⟨ht, rfl, hlt, h⟩ | ⟨hi, rfl, h⟩
    · refine List.forall_mem_cons.2 ⟨fun hz => ?_, ih h⟩
      rw [size_of_temporary ht] at hz
      omega
    · exact List.forall_mem_cons.2 ⟨fun _ => hi.special, ih h⟩

theorem Covers.sum_size (h : Covers bufs p c q) : (c.map fun i => (bufs i).size).sum = q - p := by
  induction c generalizing p with
  | nil =>
    obtain rfl : p = q := h
    simp
  | cons i c ih =>
    rw [List.map_cons, List.sum_cons]
    rcases h with ⟨ht, rfl, hlt, h⟩ | ⟨hi, rfl, h⟩
    · rw [ih h, size_of_temporary ht]
      have := h.le
      omega
    · rw [ih h, hi.size]
      omega

/-- New data behind bufs that all have data. -/
theorem Covers.concat (h : Covers bufs p c q) (ht : ∀ i ∈ c, (bufs i).temporary = true) {i : Nat}
    (hi : (bufs i).temporary = true) (hpos : (bufs i).pos = q) (hlt : q < (bufs i).last) :
    Covers bufs p (c ++ [i]) (bufs i).last := by
  induction c generalizing p with
  | nil =>
    obtain rfl : p = q := h
    exact Or.inl ⟨hi, hpos, hlt, rfl⟩
  | cons j c ih =>
    obtain ⟨hj, hc⟩ := List.forall_mem_cons.1 ht
    rcases h with ⟨-, rfl, hlt', h⟩ | ⟨hidle, -, -⟩
    · exact Or.inl ⟨hj, rfl, hlt', ih h hc⟩
    · exact absurd hj (by simp [hidle.1])

theorem Covers.concat_idle (h : Covers bufs p c q) {i : Nat} (hi : (bufs i).Idle) : Covers bufs p (c ++ [i]) q := by
  induction c generalizing p with
  | nil =>
    obtain rfl : p = q := h
    exact Or.inr ⟨hi, rfl, rfl⟩
  | cons j c ih =>
    rcases h with ⟨hj, rfl, hlt, h⟩ | ⟨hidle, rfl, h⟩
    · exact Or.inl ⟨hj, rfl, hlt, ih h⟩
    · exact Or.inr ⟨hidle, rfl, ih h⟩

/-- The ranges lie behind each other, within the ends. -/
theorem Covers.ranges (h : Covers bufs p c q) :
    (∀ i ∈ c, (bufs i).temporary = true → p ≤ (bufs i).pos ∧ (bufs i).pos < (bufs i).last ∧ (bufs i).last ≤ q) ∧
      c.Pairwise fun i j => (bufs i).temporary = true → (bufs j).temporary = true → (bufs i).last ≤ (bufs j).pos := by
  induction c generalizing p with
  | nil => exact ⟨by simp, List.Pairwise.nil⟩
  | cons i c ih =>
    rcases h with ⟨ht, rfl, hlt, h⟩ | ⟨hidle, rfl, h⟩
    · obtain ⟨hin, hpair⟩ := ih h
      refine ⟨List.forall_mem_cons.2 ⟨fun _ => ⟨le_rfl, hlt, h.le⟩, fun j hj hjt => ?_⟩, List.pairwise_cons.2 ⟨?_, hpair⟩⟩
      · obtain ⟨h1, h2, h3⟩ := hin j hj hjt
        exact ⟨by omega, h2, h3⟩
      · exact fun j hj _ hjt => (hin j hj hjt).1
    · obtain ⟨hin, hpair⟩ := ih h
      refine ⟨List.forall_mem_cons.2 ⟨fun ht => ?_, hin⟩, List.pairwise_cons.2 ⟨fun j _ ht => ?_, hpair⟩⟩
      · rw [hidle.1] at ht
        cases ht
      · rw [hidle.1] at ht
        cases ht

end Covers

/-! ## `ngx_chain_update_sent` -/

/-- The chain `c` over `p..q` after `n` of its bytes were sent. -/
structure SentTo (bufs : Nat → Buf) (c : Chain) (p n q : Nat) (bufs' : Nat → Buf) (c' : Chain) : Prop where
  frame : ∀ i ∉ c, bufs' i = bufs i
  covers : Covers bufs' (p + n) c' q
  suffix : ∃ done, c = done ++ c' ∧ ∀ i ∈ done, (bufs' i).size = 0
  front : FrontFull bufs' c'
  kind : ∀ i, (bufs' i).temporary = (bufs i).temporary

theorem SentTo.trans {bufs bufs' bufs'' : Nat → Buf} {c c' c'' : Chain} {p n m q : Nat} (hnd : c.Nodup)
    (h : SentTo bufs c p n q bufs' c') (h' : SentTo bufs' c' (p + n) m q bufs'' c'') :
    SentTo bufs c p (n + m) q bufs'' c'' := by
  obtain ⟨done, rfl, hdone⟩ := h.suffix
  obtain ⟨done', rfl, hdone'⟩ := h'.suffix
  refine ⟨fun i hi => ?_, ?_, ⟨done ++ done', by simp, fun i hi => ?_⟩, h'.front, fun i => ?_⟩
  · rw [h'.frame i fun hm => hi (List.mem_append_right _ hm), h.frame i hi]
  · rw [← Nat.add_assoc]
    exact h'.covers
  · rcases List.mem_append.1 hi with hi | hi
    · rw [h'.frame i fun hm => (List.disjoint_of_nodup_append hnd) hi hm]
      exact hdone i hi
    · exact hdone' i hi
  · rw [h'.kind, h.kind]

/-- The first buf has gone out as a whole. -/
theorem SentTo.cons {bufs bufs₁ bufs' : Nat → Buf} {i : Nat} {c c' : Chain} {p p' n m q : Nat} (hi : i ∉ c)
    (hother : ∀ j ≠ i, bufs₁ j = bufs j) (hsize : (bufs₁ i).size = 0)
    (hkind : (bufs₁ i).temporary = (bufs i).temporary) (hp : p + n = p' + m)
    (h : SentTo bufs₁ c p' m q bufs' c') : SentTo bufs (i :: c) p n q bufs' c' := by
  obtain ⟨done, rfl, hdone⟩ := h.suffix
  refine ⟨fun j hj => ?_, hp ▸ h.covers, ⟨i :: done, rfl, List.forall_mem_cons.2 ⟨?_, hdone⟩⟩, h.front, fun j => ?_⟩
  · rw [List.mem_cons, not_or] at hj
    rw [h.frame j hj.2, hother j hj.1]
  · rw [h.frame i hi]
    exact hsize
  · rw [h.kind]
    by_cases hj : j = i
    · rw [hj, hkind]
    · rw [hother j hj]

theorem ngxChainUpdateSent_spec {bufs : Nat → Buf} {c : Chain} {p n q : Nat} (hc : Covers bufs p c q) (hnd : c.Nodup)
    (hn : p + n ≤ q) :
    SentTo bufs c p n q (ngxChainUpdateSent bufs c n).1 (ngxChainUpdateSent bufs c n).2 := by
  induction c generalizing bufs p n with
  | nil =>
    obtain rfl : p = q := hc
    obtain rfl : n = 0 := by omega
    exact ⟨fun i _ => rfl, rfl, ⟨[], rfl, by simp⟩, by simp [FrontFull, ngxChainUpdateSent], fun i => rfl⟩
  | cons i c ih =>
    obtain ⟨hi, hnd⟩ := List.nodup_cons.1 hnd
    have hupd : ∀ b : Buf, ∀ j ≠ i, Function.update bufs i b j = bufs j := fun b j hj => Function.update_of_ne hj b bufs
    rcases hc with ⟨ht, hpos, hlt, hc⟩ | ⟨hidle, rfl, hc⟩
    · have hsp : ¬ (bufs i).special = true := by simp [special_of_temporary ht]
      have hkeep : ∀ b : Buf, Covers (Function.update bufs i b) (bufs i).last c q := fun b =>
        hc.congr fun j hj => hupd b j fun he => hi (he ▸ hj)
      by_cases hn0 : n = 0
      · subst hn0
        rw [ngxChainUpdateSent, if_neg hsp, if_pos rfl]
        refine ⟨fun j _ => rfl, Or.inl ⟨ht, hpos, hlt, hc⟩, ⟨[], rfl, by simp⟩, ?_, fun j => rfl⟩
        simp only [FrontFull, List.head?_cons, Option.mem_some_iff, forall_eq']
        rw [size_of_temporary ht]
        omega
      · by_cases hall : (bufs i).size ≤ n
        · rw [ngxChainUpdateSent, if_neg hsp, if_neg hn0, if_pos hall, if_pos ht]
          rw [size_of_temporary ht] at hall ⊢
          refine SentTo.cons hi (hupd _) ?_ ?_ ?_ (ih (hkeep _) hnd (by omega))
          · simp [Buf.size]
          · simp
          · omega
        · have hres : ngxChainUpdateSent bufs (i :: c) n =
              (Function.update bufs i { bufs i with pos := (bufs i).pos + n }, i :: c) := by
            rw [ngxChainUpdateSent, if_neg hsp, if_neg hn0, if_neg hall, if_pos ht]
          rw [hres]
          rw [size_of_temporary ht] at hall
          refine ⟨fun j hj => ?_, Or.inl ?_, ⟨[], rfl, by simp⟩, ?_, fun j => ?_⟩
          · exact hupd _ j fun he => hj (he ▸ List.mem_cons_self)
          · simp only [Function.update_self]
            exact ⟨ht, by rw [hpos], by omega, hkeep _⟩
          · intro j hj
            obtain rfl : i = j := Option.some.inj hj
            simp only [Function.update_self, Buf.size, ht, if_true]
            omega
          · by_cases hj : j = i
            · simp only [hj, Function.update_self]
            · exact congrArg Buf.temporary (hupd _ j hj)
    · obtain rfl : n = 0 := by omega
      rw [ngxChainUpdateSent, if_pos hidle.special]
      exact SentTo.cons hi (fun j _ => rfl) hidle.size rfl rfl (ih hc hnd hn)

/-! ## The vector -/

/-- Once the limit is reached nothing is added. -/
theorem ngxOutputChainToIovec_full {limit total : Nat} (h : limit ≤ total) (bufs : Nat → Buf) (c : Chain)
    (iovs : List (Nat × Nat)) (prev : Option Nat) :
    ngxOutputChainToIovec limit bufs c iovs prev total = some (iovs, total) := by
  cases c with
  | nil => rfl
  | cons i c => rw [ngxOutputChainToIovec, if_pos h]

theorem gathered_concat (mem : Mem) (iovs : List (Nat × Nat)) (b k : Nat) :
    gathered mem (iovs ++ [(b, k)]) = gathered mem iovs ++ seg mem b (b + k) := by
  simp [gathered]

/-- The end of the last entry, where the source keeps it in `prev`. -/
def EndsAt (iovs : List (Nat × Nat)) (prev : Option Nat) : Prop :=
  ∀ e ∈ prev, ∃ front b k, iovs = front ++ [(b, k)] ∧ b + k = e

/-- The vector of a chain over `p..q`: its first bytes, as many as there are below the limit,
and at least one. -/
theorem ngxOutputChainToIovec_spec {bufs : Nat → Buf} (limit : Nat) {q : Nat} (mem : Mem) {c : Chain} {p : Nat}
    (iovs : List (Nat × Nat)) (prev : Option Nat) (total : Nat) (hc : Covers bufs p c q) (hend : EndsAt iovs prev) :
    ∃ iovs' n, ngxOutputChainToIovec limit bufs c iovs prev total = some (iovs', total + n) ∧ p + n ≤ q ∧
      gathered mem iovs' = gathered mem iovs ++ seg mem p (p + n) ∧
      (p < q → total < limit → iovs.length < ngxIovsPreallocate → 0 < n) := by
  have hstay : ∃ iovs' n, some (iovs, total) = some (iovs', total + n) ∧ p + n ≤ q ∧
      gathered mem iovs' = gathered mem iovs ++ seg mem p (p + n) ∧ (n = 0) :=
    ⟨iovs, 0, rfl, hc.le, by simp, rfl⟩
  induction c generalizing p iovs prev total with
  | nil =>
    obtain ⟨iovs', n, he, hle, hg, rfl⟩ := hstay
    obtain rfl : p = q := hc
    exact ⟨iovs', 0, he, hle, hg, fun hlt => absurd hlt (lt_irrefl _)⟩
  | cons i c ih =>
    rw [ngxOutputChainToIovec]
    by_cases hlim : limit ≤ total
    · obtain ⟨iovs', n, he, hle, hg, rfl⟩ := hstay
      rw [if_pos hlim]
      exact ⟨iovs', 0, he, hle, hg, fun _ h => absurd h (not_lt.2 hlim)⟩
    rw [if_neg hlim]
    rcases hc with ⟨ht, rfl, hlt, hc⟩ | ⟨hidle, rfl, hc⟩
    · rw [if_neg (by simp [special_of_temporary ht]), if_neg (by simp [ht])]
      -- what the entry for this buf takes, and what the rest of the chain adds
      have hgo : ∀ iovs₁, gathered mem iovs₁ = gathered mem iovs ++
            seg mem (bufs i).pos ((bufs i).pos + min ((bufs i).last - (bufs i).pos) (limit - total)) →
          EndsAt iovs₁ (some ((bufs i).pos + min ((bufs i).last - (bufs i).pos) (limit - total))) →
          ∃ iovs' n, ngxOutputChainToIovec limit bufs c iovs₁
              (some ((bufs i).pos + min ((bufs i).last - (bufs i).pos) (limit - total)))
              (total + min ((bufs i).last - (bufs i).pos) (limit - total)) = some (iovs', total + n) ∧
            (bufs i).pos + n ≤ q ∧
            gathered mem iovs' = gathered mem iovs ++ seg mem (bufs i).pos ((bufs i).pos + n) ∧ 0 < n := by
        intro iovs₁ hg hend₁
        have hq := hc.le
        rcases Nat.le_total ((bufs i).last - (bufs i).pos) (limit - total) with hfit | hcut
        · rw [Nat.min_eq_left hfit] at hg hend₁ ⊢
          rw [Nat.add_sub_cancel' hlt.le] at hg hend₁ ⊢
          obtain ⟨iovs', n, he, hle, hg', -⟩ := ih iovs₁ _ (total + ((bufs i).last - (bufs i).pos)) hc hend₁
            ⟨iovs₁, 0, rfl, hc.le, by simp, rfl⟩
          refine ⟨iovs', (bufs i).last - (bufs i).pos + n, by rw [he, Nat.add_assoc], by omega, ?_, by omega⟩
          rw [hg', hg, List.append_assoc, seg_append mem hlt.le (by omega)]
          congr 2
          omega
        · rw [Nat.min_eq_right hcut] at hg hend₁ ⊢
          refine ⟨iovs₁, limit - total, ngxOutputChainToIovec_full (by omega) .., by omega, hg, by omega⟩
      by_cases hprev : prev = some (bufs i).pos
      · rw [if_pos hprev]
        obtain ⟨front, b, k, rfl, hbk⟩ := hend _ hprev
        obtain ⟨iovs', n, he, hle, hg, hn⟩ := hgo
            (front ++ [(b, k + min ((bufs i).last - (bufs i).pos) (limit - total))]) (by
          rw [gathered_concat, gathered_concat, List.append_assoc, ← hbk,
            seg_append mem (Nat.le_add_right b k) (Nat.le_add_right ..), Nat.add_assoc]) (by
          intro e he
          obtain rfl := Option.some.inj he
          exact ⟨front, b, _, rfl, by omega⟩)
        refine ⟨iovs', n, ?_, hle, hg, fun _ _ _ => hn⟩
        simpa using he
      · rw [if_neg hprev]
        by_cases hfull : iovs.length = ngxIovsPreallocate
        · obtain ⟨iovs', n, he, hle, hg, rfl⟩ := hstay
          rw [if_pos hfull]
          exact ⟨iovs', 0, he, hle, hg, fun _ _ h => absurd hfull h.ne⟩
        · rw [if_neg hfull]
          obtain ⟨iovs', n, he, hle, hg, hn⟩ := hgo _ (gathered_concat mem iovs _ _) (by
            intro e he
            obtain rfl := Option.some.inj he
            exact ⟨iovs, _, _, rfl, rfl⟩)
          exact ⟨iovs', n, he, hle, hg, fun _ _ _ => hn⟩
    · rw [if_pos hidle.special]
      exact ih _ _ _ hc hend hstay

end NgxPlus.Socks5.Relay
