import Mathlib.Data.List.Forall2

/-!
# Counted decoders

A decoder is a function `σ → Except ε (α × σ)` from what is left of the input to a value
and what is left then. `times f n` runs it `n` times, as a loop over a count read from the
message does; the list it returns carries its length.

For messages that an encoder wrote, `S a bs` is the decoder's state with the bytes `bs`
still in front of it and `a` the rest of the state, which one item `x` takes to `N a x`.
`times_encoded` is the round trip of a whole list, and `forall_of_times_ok` its converse:
where the decoder refuses each bad item, a list that was decoded had no bad item.

`loop more f` is the other way to read a list: `while more do f`, with a bound on the number of
rounds. `loop_encoded` is its round trip.
-/

namespace Decode

variable {ε α β σ : Type}

@[simp] theorem ok_bind (a : α) (f : α → Except ε β) : (Except.ok a >>= f) = f a := rfl

@[simp] theorem error_bind (e : ε) (f : α → Except ε β) : (Except.error e >>= f) = .error e := rfl

theorem bind_eq_ok {x : Except ε α} {f : α → Except ε β} {r : β} :
    (x >>= f) = .ok r ↔ ∃ a, x = .ok a ∧ f a = .ok r := by
  cases x with
  | error e => simp
  | ok a => simp

theorem bind_eq_error {x : Except ε α} {f : α → Except ε β} {e : ε} :
    (x >>= f) = .error e ↔ x = .error e ∨ ∃ a, x = .ok a ∧ f a = .error e := by
  cases x with
  | error e' => simp
  | ok a => simp

/-- `n` items in a row. -/
def times (f : σ → Except ε (α × σ)) : (n : Nat) → σ → Except ε ({xs : List α // xs.length = n} × σ)
  | 0, s => .ok (⟨[], rfl⟩, s)
  | n + 1, s => do
    let (x, s) ← f s
    let (xs, s) ← times f n s
    return (⟨x :: xs.1, by rw [List.length_cons, xs.2]⟩, s)

theorem times_succ_eq_ok {f : σ → Except ε (α × σ)} {n : Nat} {s s' : σ}
    {xs : {xs : List α // xs.length = n + 1}} :
    times f (n + 1) s = .ok (xs, s') ↔
      ∃ x t ys, f s = .ok (x, t) ∧ times f n t = .ok (ys, s') ∧ xs.1 = x :: ys.1 := by
  simp only [times, bind_eq_ok]
  constructor
  · rintro ⟨⟨x, t⟩, hx, ⟨ys, t'⟩, hys, h⟩
    obtain ⟨rfl, rfl⟩ := Prod.mk.inj (Except.ok.inj h)
    exact ⟨x, t, ys, hx, hys, rfl⟩
  · rintro ⟨x, t, ys, hx, hys, h⟩
    refine ⟨(x, t), hx, (ys, s'), hys, ?_⟩
    exact congrArg (fun l => Except.ok (l, s')) (Subtype.ext h.symm)

/-- What every item brings and keeps, the whole list brings and keeps. -/
theorem times_all {f : σ → Except ε (α × σ)} {I : σ → Prop} {P : α → Prop}
    (hf : ∀ s x s', I s → f s = .ok (x, s') → P x ∧ I s') {n : Nat} {s s' : σ}
    {xs : {xs : List α // xs.length = n}} (hI : I s) (h : times f n s = .ok (xs, s')) :
    (∀ x ∈ xs.1, P x) ∧ I s' := by
  induction n generalizing s with
  | zero =>
    obtain ⟨rfl, rfl⟩ := Prod.mk.inj (Except.ok.inj h)
    exact ⟨by simp, hI⟩
  | succ n ih =>
    obtain ⟨x, t, ys, hx, hys, he⟩ := times_succ_eq_ok.1 h
    obtain ⟨hP, hI'⟩ := hf _ _ _ hI hx
    obtain ⟨hall, hI''⟩ := ih hI' hys
    refine ⟨fun y hy => ?_, hI''⟩
    rw [he] at hy
    rcases List.mem_cons.1 hy with rfl | hy
    · exact hP
    · exact hall y hy

/-! ## Against an encoder -/

section Encoded

variable {γ τ : Type} {f : σ → Except ε (α × σ)} {S : τ → List γ → σ} {N : τ → β → τ}
  {enc : β → List γ} {R : β → α → Prop} {I : τ → Prop} {Good : β → Prop}

/-- A list of good items decodes item by item. -/
theorem times_encoded (hI : ∀ a x, I a → I (N a x))
    (hgood : ∀ a x rest, I a → Good x → ∃ y, R x y ∧ f (S a (enc x ++ rest)) = .ok (y, S (N a x) rest))
    {xs : List β} (hxs : ∀ x ∈ xs, Good x) {a : τ} (ha : I a) (rest : List γ) {n : Nat}
    (hn : xs.length = n) :
    ∃ ys : {ys : List α // ys.length = n}, List.Forall₂ R xs ys.1 ∧
      times f n (S a (xs.flatMap enc ++ rest)) = .ok (ys, S (xs.foldl N a) rest) := by
  subst hn
  induction xs generalizing a with
  | nil => exact ⟨⟨[], rfl⟩, .nil, rfl⟩
  | cons x xs ih =>
    obtain ⟨y, hy, hx⟩ := hgood a x (xs.flatMap enc ++ rest) ha (hxs x List.mem_cons_self)
    obtain ⟨ys, hys, h⟩ := ih (fun z hz => hxs z (List.mem_cons_of_mem _ hz)) (hI a x ha)
    refine ⟨⟨y :: ys.1, by rw [List.length_cons, ys.2, List.length_cons]⟩, .cons hy hys, ?_⟩
    refine times_succ_eq_ok.2 ⟨y, _, ys, ?_, h, rfl⟩
    rw [List.flatMap_cons, List.append_assoc]
    exact hx

/-- The same where each item has one value. -/
theorem times_encoded_map {g : β → α} (hI : ∀ a x, I a → I (N a x))
    (hgood : ∀ a x rest, I a → Good x → f (S a (enc x ++ rest)) = .ok (g x, S (N a x) rest))
    {xs : List β} (hxs : ∀ x ∈ xs, Good x) {a : τ} (ha : I a) (rest : List γ) :
    times f xs.length (S a (xs.flatMap enc ++ rest)) =
      .ok (⟨xs.map g, List.length_map g⟩, S (xs.foldl N a) rest) := by
  obtain ⟨ys, hR, h⟩ := times_encoded (R := fun x y => g x = y) hI
    (fun a x rest ha hx => ⟨g x, rfl, hgood a x rest ha hx⟩) hxs ha rest rfl
  have hmap : List.Forall₂ Eq (xs.map g) ys.1 := List.forall₂_map_left_iff.2 hR
  rw [List.forall₂_eq_eq_eq] at hmap
  rw [h]
  exact congrArg (fun l => Except.ok (l, S (xs.foldl N a) rest)) (Subtype.ext hmap.symm)

/-- Behind good items, an item that is refused ends the loop. -/
theorem times_encoded_error (hI : ∀ a x, I a → I (N a x))
    (hgood : ∀ a x rest, I a → Good x → ∃ y, R x y ∧ f (S a (enc x ++ rest)) = .ok (y, S (N a x) rest))
    {xs : List β} (hxs : ∀ x ∈ xs, Good x) {a : τ} (ha : I a) {rest : List γ}
    (hrest : ∀ a, I a → ∃ e, f (S a rest) = .error e) {n : Nat} (hn : xs.length < n) :
    ∃ e, times f n (S a (xs.flatMap enc ++ rest)) = .error e := by
  induction xs generalizing a n with
  | nil =>
    obtain ⟨n, rfl⟩ := Nat.exists_eq_add_of_lt hn
    obtain ⟨e, he⟩ := hrest a ha
    refine ⟨e, bind_eq_error.2 (Or.inl ?_)⟩
    simpa using he
  | cons x xs ih =>
    obtain ⟨n, rfl⟩ : ∃ k, n = k + 1 := ⟨n - 1, by omega⟩
    obtain ⟨y, -, hx⟩ := hgood a x (xs.flatMap enc ++ rest) ha (hxs x List.mem_cons_self)
    obtain ⟨e, he⟩ := ih (fun z hz => hxs z (List.mem_cons_of_mem _ hz)) (hI a x ha)
      (Nat.lt_of_succ_lt_succ hn)
    refine ⟨e, bind_eq_error.2 (Or.inr ⟨(y, _), ?_, bind_eq_error.2 (Or.inl he)⟩)⟩
    rw [List.flatMap_cons, List.append_assoc]
    exact hx

/-- The converse: if no bad item decodes to what it should (`R`), a list that decodes to what it
should has none. -/
theorem forall_of_times_rel (hI : ∀ a x, I a → I (N a x))
    (hgood : ∀ a x rest, I a → Good x → ∃ y, R x y ∧ f (S a (enc x ++ rest)) = .ok (y, S (N a x) rest))
    {xs : List β} (hbad : ∀ a, ∀ x ∈ xs, ∀ rest y s', I a → ¬ Good x →
      f (S a (enc x ++ rest)) = .ok (y, s') → ¬ R x y)
    {a : τ} (ha : I a) {rest : List γ} {r : {ys : List α // ys.length = xs.length} × σ}
    (h : times f xs.length (S a (xs.flatMap enc ++ rest)) = .ok r) (hR : List.Forall₂ R xs r.1.1) :
    ∀ x ∈ xs, Good x := by
  induction xs generalizing a with
  | nil => simp
  | cons x xs ih =>
    rw [List.flatMap_cons, List.append_assoc] at h
    obtain ⟨r, s'⟩ := r
    obtain ⟨y, t, ys, hx, hys, hr⟩ := times_succ_eq_ok.1 h
    rw [hr] at hR
    obtain ⟨hxy, hR'⟩ := List.forall₂_cons.1 hR
    by_cases hg : Good x
    · obtain ⟨y', -, hx'⟩ := hgood a x (xs.flatMap enc ++ rest) ha hg
      rw [hx'] at hx
      obtain ⟨-, rfl⟩ := Prod.mk.inj (Except.ok.inj hx)
      have hall := ih (fun a z hz => hbad a z (List.mem_cons_of_mem _ hz)) (hI a x ha) hys hR'
      intro z hz
      rcases List.mem_cons.1 hz with rfl | hz
      · exact hg
      · exact hall z hz
    · exact absurd hxy (hbad a x List.mem_cons_self _ y t ha hg hx)

/-- Where each bad item is refused, a decoded list has none. -/
theorem forall_of_times_ok {g : β → α} (hI : ∀ a x, I a → I (N a x))
    (hgood : ∀ a x rest, I a → Good x → f (S a (enc x ++ rest)) = .ok (g x, S (N a x) rest))
    {xs : List β} (hbad : ∀ a, ∀ x ∈ xs, ∀ rest, I a → ¬ Good x →
      ∃ e, f (S a (enc x ++ rest)) = .error e)
    {a : τ} (ha : I a) {rest : List γ}
    {r : {ys : List α // ys.length = xs.length} × σ}
    (h : times f xs.length (S a (xs.flatMap enc ++ rest)) = .ok r) : ∀ x ∈ xs, Good x := by
  refine forall_of_times_rel (R := fun _ _ => True) hI
    (fun a x rest ha hx => ⟨g x, trivial, hgood a x rest ha hx⟩) ?_ ha h
    (List.forall₂_iff_zip.2 ⟨r.1.2.symm, fun _ => trivial⟩)
  intro a x hmem rest y s' ha hx hy
  obtain ⟨e, he⟩ := hbad a x hmem rest ha hx
  rw [he] at hy
  simp at hy

end Encoded

/-! ## Until nothing is left -/

/-- `while more do f`, at most `fuel` times. -/
def loop (more : σ → Bool) (f : σ → Except ε σ) : Nat → σ → Except ε σ
  | 0, s => .ok s
  | fuel + 1, s => if more s then f s >>= loop more f fuel else .ok s

section Loop

variable {more : σ → Bool} {f : σ → Except ε σ}

theorem loop_stop {s : σ} (h : more s = false) (fuel : Nat) : loop more f fuel s = .ok s := by
  cases fuel with
  | zero => rfl
  | succ fuel => simp [loop, h]

theorem loop_more {s : σ} (h : more s = true) (fuel : Nat) :
    loop more f (fuel + 1) s = (f s >>= loop more f fuel) := by
  simp [loop, h]

/-- What every round keeps, the loop keeps. -/
theorem loop_inv {I : σ → Prop} (hf : ∀ s s', I s → f s = .ok s' → I s') {fuel : Nat} {s s' : σ} (hI : I s)
    (h : loop more f fuel s = .ok s') : I s' := by
  induction fuel generalizing s with
  | zero =>
    obtain rfl := Except.ok.inj h
    exact hI
  | succ fuel ih =>
    cases hm : more s with
    | false =>
      rw [loop_stop hm] at h
      obtain rfl := Except.ok.inj h
      exact hI
    | true =>
      rw [loop_more hm, bind_eq_ok] at h
      obtain ⟨t, ht, h⟩ := h
      exact ih (hf s t hI ht) h

/-- A list of good items is read item by item, to the end. -/
theorem loop_encoded {γ τ : Type} {S : τ → List γ → σ} {N : τ → β → τ} {E : β → List γ} {G : β → Prop}
    (hmore : ∀ a x rest, G x → more (S a (E x ++ rest)) = true) (hdone : ∀ a, more (S a []) = false)
    (hgood : ∀ a x rest, G x → f (S a (E x ++ rest)) = .ok (S (N a x) rest))
    {xs : List β} (hxs : ∀ x ∈ xs, G x) (a : τ) {fuel : Nat} (hfuel : xs.length ≤ fuel) :
    loop more f fuel (S a (xs.flatMap E)) = .ok (S (xs.foldl N a) []) := by
  induction xs generalizing a fuel with
  | nil => exact loop_stop (hdone a) fuel
  | cons x xs ih =>
    obtain ⟨fuel, rfl⟩ : ∃ k, fuel = k + 1 := ⟨fuel - 1, by simp at hfuel; omega⟩
    have hx : G x := hxs x List.mem_cons_self
    rw [List.flatMap_cons, loop_more (hmore a x _ hx), hgood a x _ hx, ok_bind]
    exact ih (fun z hz => hxs z (List.mem_cons_of_mem _ hz)) (N a x) (by simpa using hfuel)

end Loop

end Decode
