import Mathlib.Data.List.Sort
import Mathlib.Order.Interval.Finset.Basic
import Mathlib.Data.Int.Interval
import Mathlib.Data.Prod.Lex

/-!
# Sorted sets

A set of members, each with a score, kept in the order of scores and, for equal scores, of
members. `add` gives a member a score, whether it was there or not; `remByScore` drops and
`rangeByScore` lists the entries whose score meets a condition; `last?` is the entry that
comes last.

`mem_add`, `mem_remByScore`, `last?_eq_some` and `rangeByScore_eq` are all that is used of the
list behind it; where no two members have one score, ranges can be put together
(`rangeByScore_append`) and counted (`length_rangeByScore_le`).
-/

structure SortedSet (σ α : Type) [LinearOrder σ] [LinearOrder α] where
  entries : List (σ × α)
  sorted : entries.Pairwise fun a b => toLex a ≤ toLex b
  nodup : (entries.map Prod.snd).Nodup

namespace SortedSet

variable {σ α : Type} [LinearOrder σ] [LinearOrder α]

instance : Std.Total fun a b : σ × α => toLex a ≤ toLex b := ⟨fun a b => le_total (toLex a) (toLex b)⟩

instance : IsTrans (σ × α) fun a b => toLex a ≤ toLex b := ⟨fun _ _ _ => le_trans⟩

def empty : SortedSet σ α := ⟨[], .nil, .nil⟩

def remByScore (s : SortedSet σ α) (p : σ → Bool) : SortedSet σ α where
  entries := s.entries.filter fun e => !p e.1
  sorted := s.sorted.filter _
  nodup := (List.filter_sublist.map _).nodup s.nodup

def remove (s : SortedSet σ α) (m : α) : SortedSet σ α where
  entries := s.entries.filter fun e => e.2 ≠ m
  sorted := s.sorted.filter _
  nodup := (List.filter_sublist.map _).nodup s.nodup

theorem mem_remove {s : SortedSet σ α} {m : α} {e : σ × α} :
    e ∈ (s.remove m).entries ↔ e ∈ s.entries ∧ e.2 ≠ m := by
  simp [remove]

def add (s : SortedSet σ α) (score : σ) (m : α) : SortedSet σ α where
  entries := (s.remove m).entries.orderedInsert (fun a b => toLex a ≤ toLex b) (score, m)
  sorted := (s.remove m).sorted.orderedInsert _ _
  nodup := by
    rw [((List.perm_orderedInsert _ _ _).map _).nodup_iff, List.map_cons, List.nodup_cons]
    refine ⟨fun h => ?_, (s.remove m).nodup⟩
    obtain ⟨e, he, hm⟩ := List.mem_map.1 h
    exact (mem_remove.1 he).2 hm

def rangeByScore (s : SortedSet σ α) (p : σ → Bool) : List (σ × α) := s.entries.filter fun e => p e.1

def last? (s : SortedSet σ α) : Option (σ × α) := s.entries.getLast?

@[simp] theorem entries_empty : (empty : SortedSet σ α).entries = [] := rfl

@[simp] theorem mem_remByScore {s : SortedSet σ α} {p : σ → Bool} {e : σ × α} :
    e ∈ (s.remByScore p).entries ↔ e ∈ s.entries ∧ p e.1 = false := by
  simp [remByScore]

@[simp] theorem mem_add {s : SortedSet σ α} {score : σ} {m : α} {e : σ × α} :
    e ∈ (s.add score m).entries ↔ e = (score, m) ∨ e ∈ s.entries ∧ e.2 ≠ m := by
  rw [add, List.mem_orderedInsert, mem_remove]

@[simp] theorem mem_rangeByScore {s : SortedSet σ α} {p : σ → Bool} {e : σ × α} :
    e ∈ s.rangeByScore p ↔ e ∈ s.entries ∧ p e.1 = true := by
  simp [rangeByScore]

theorem nodup_entries (s : SortedSet σ α) : s.entries.Nodup := s.nodup.of_map

/-- The last entry has the highest score. -/
theorem last?_eq_some {s : SortedSet σ α} {e : σ × α} (h : s.last? = some e) :
    e ∈ s.entries ∧ ∀ a ∈ s.entries, a.1 ≤ e.1 := by
  obtain ⟨l, hl⟩ := List.getLast?_eq_some_iff.1 h
  have hmem : e ∈ s.entries := by rw [hl]; simp
  refine ⟨hmem, fun a ha => ?_⟩
  rw [hl] at ha
  rcases List.mem_append.1 ha with ha | ha
  · have hs := s.sorted
    rw [hl, List.pairwise_append] at hs
    exact (Prod.Lex.toLex_le_toLex'.1 (hs.2.2 a ha e (by simp))).1
  · rw [List.mem_singleton.1 ha]

@[simp] theorem last?_eq_none {s : SortedSet σ α} : s.last? = none ↔ s.entries = [] :=
  List.getLast?_eq_none_iff

/-- The highest score, where some entry is known to have it. -/
theorem last?_score {s : SortedSet σ α} {e : σ × α} (he : e ∈ s.entries)
    (hmax : ∀ a ∈ s.entries, a.1 ≤ e.1) : s.last?.map Prod.fst = some e.1 := by
  cases h : s.last? with
  | none => rw [last?_eq_none.1 h] at he; simp at he
  | some a =>
    obtain ⟨ha, hle⟩ := last?_eq_some h
    exact congrArg some (le_antisymm (hmax a ha) (hle e he))

/-- A range is the list of its entries in the order of their scores. -/
theorem rangeByScore_eq {s : SortedSet σ α} {p : σ → Bool} {l : List (σ × α)}
    (hsort : l.Pairwise fun a b => a.1 < b.1) (hmem : ∀ e, e ∈ l ↔ e ∈ s.entries ∧ p e.1 = true) :
    s.rangeByScore p = l := by
  have hnodup : l.Nodup := hsort.imp fun {a b} h => by rintro rfl; exact lt_irrefl _ h
  have hperm : (s.rangeByScore p).Perm l := by
    refine (List.perm_ext_iff_of_nodup (s.nodup_entries.filter _) hnodup).2 fun e => ?_
    change e ∈ s.rangeByScore p ↔ _
    rw [mem_rangeByScore, hmem]
  have hl : l.Pairwise fun a b => toLex a ≤ toLex b :=
    hsort.imp fun {a b} h => Prod.Lex.toLex_le_toLex.2 (Or.inl h)
  have : Std.Antisymm fun a b : σ × α => toLex a ≤ toLex b :=
    ⟨fun a b h1 h2 => toLex.injective (le_antisymm h1 h2)⟩
  exact hperm.eq_of_pairwise' (s.sorted.filter _) hl

/-- The last entry of a range has the highest score of the range. -/
theorem getLast?_rangeByScore {s : SortedSet σ α} {p : σ → Bool} {e : σ × α}
    (h : (s.rangeByScore p).getLast? = some e) :
    e ∈ s.rangeByScore p ∧ ∀ a ∈ s.rangeByScore p, a.1 ≤ e.1 := by
  have hrem : (s.remByScore fun x => !p x).entries = s.rangeByScore p := by simp [remByScore, rangeByScore]
  rw [← hrem] at h ⊢
  exact last?_eq_some h

/-! ## One member a score -/

def OnePerScore (s : SortedSet σ α) : Prop := (s.entries.map Prod.fst).Nodup

theorem OnePerScore.sorted {s : SortedSet σ α} (h : s.OnePerScore) : s.entries.Pairwise fun a b => a.1 < b.1 := by
  have hne : s.entries.Pairwise fun a b => a.1 ≠ b.1 := List.pairwise_map.1 h
  exact (hne.and s.sorted).imp fun {a b} hab => lt_of_le_of_ne (Prod.Lex.toLex_le_toLex'.1 hab.2).1 hab.1

theorem OnePerScore.rangeByScore_sorted {s : SortedSet σ α} (h : s.OnePerScore) (p : σ → Bool) :
    (s.rangeByScore p).Pairwise fun a b => a.1 < b.1 :=
  h.sorted.filter _

theorem OnePerScore.add {s : SortedSet σ α} (h : s.OnePerScore) {score : σ} (hnew : ∀ e ∈ s.entries, e.1 ≠ score) (m : α) :
    (s.add score m).OnePerScore := by
  rw [OnePerScore, SortedSet.add, ((List.perm_orderedInsert _ _ _).map _).nodup_iff, List.map_cons, List.nodup_cons]
  refine ⟨fun hs => ?_, (List.filter_sublist.map _).nodup h⟩
  obtain ⟨e, he, hscore⟩ := List.mem_map.1 hs
  exact hnew e (mem_remove.1 he).1 hscore

/-- A range in two parts, the first below the second. -/
theorem OnePerScore.rangeByScore_append {s : SortedSet σ α} (h : s.OnePerScore) {p q r : σ → Bool}
    (hlt : ∀ x y, p x = true → q y = true → x < y) (hr : ∀ x, r x = (p x || q x)) :
    s.rangeByScore r = s.rangeByScore p ++ s.rangeByScore q := by
  apply rangeByScore_eq
  · rw [List.pairwise_append]
    refine ⟨h.rangeByScore_sorted p, h.rangeByScore_sorted q, ?_⟩
    intro a ha b hb
    exact hlt a.1 b.1 (mem_rangeByScore.1 ha).2 (mem_rangeByScore.1 hb).2
  · intro e
    rw [List.mem_append, mem_rangeByScore, mem_rangeByScore, hr, Bool.or_eq_true, and_or_left]

/-- No more members than scores. -/
theorem OnePerScore.length_rangeByScore_le_of_mem {s : SortedSet Nat α} (h : s.OnePerScore) {p : Nat → Bool} {a b : Int}
    (hp : ∀ e ∈ s.rangeByScore p, a < e.1 ∧ (e.1 : Int) ≤ b) : (s.rangeByScore p).length ≤ (b - a).toNat := by
  have hnodup : ((s.rangeByScore p).map fun e => (e.1 : Int)).Nodup := by
    rw [List.Nodup, List.pairwise_map]
    exact (h.rangeByScore_sorted p).imp fun {x y} hxy => by simp [hxy.ne]
  have hsub : ((s.rangeByScore p).map fun e => (e.1 : Int)).toFinset ⊆ Finset.Ioc a b := by
    intro x hx
    obtain ⟨e, he, rfl⟩ := List.mem_map.1 (List.mem_toFinset.1 hx)
    exact Finset.mem_Ioc.2 (hp e he)
  have hcard := Finset.card_le_card hsub
  rw [List.toFinset_card_of_nodup hnodup, List.length_map, Int.card_Ioc] at hcard
  exact hcard

theorem OnePerScore.length_rangeByScore_le {s : SortedSet Nat α} (h : s.OnePerScore) {p : Nat → Bool} {a b : Int}
    (hp : ∀ x, p x = true → a < x ∧ (x : Int) ≤ b) : (s.rangeByScore p).length ≤ (b - a).toNat :=
  h.length_rangeByScore_le_of_mem fun _ he => hp _ (mem_rangeByScore.1 he).2

end SortedSet
