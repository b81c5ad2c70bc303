import Mathlib.Data.List.Basic

/-!
# Association lists

A table as the list of its keys with their values. `set` puts a key first and drops what it
had before, so a key is bound once; `get` finds the first binding.
-/

abbrev AssocList (κ ν : Type) := List (κ × ν)

namespace AssocList

variable {κ ν : Type} [BEq κ] [LawfulBEq κ]

def get (d : AssocList κ ν) (k : κ) : Option ν := (d.find? fun p => p.1 == k).map Prod.snd

def delete (d : AssocList κ ν) (k : κ) : AssocList κ ν := d.filter fun p => p.1 != k

def set (d : AssocList κ ν) (k : κ) (v : ν) : AssocList κ ν := (k, v) :: delete d k

theorem get_delete_of_ne (d : AssocList κ ν) {k k' : κ} (h : k' ≠ k) : get (delete d k) k' = get d k' := by
  induction d with
  | nil => rfl
  | cons p d ih =>
    unfold get delete at ih ⊢
    by_cases hp : p.1 = k
    · have hk' : (p.1 == k') = false := by simp [hp, Ne.symm h]
      rw [List.filter_cons_of_neg (by simp [hp]), List.find?_cons_of_neg (by simp [hk'])]
      exact ih
    · rw [List.filter_cons_of_pos (by simp [hp])]
      by_cases hpk : p.1 = k'
      · rw [List.find?_cons_of_pos (by simp [hpk]), List.find?_cons_of_pos (by simp [hpk])]
      · rw [List.find?_cons_of_neg (by simp [hpk]), List.find?_cons_of_neg (by simp [hpk])]
        exact ih

@[simp] theorem get_delete_self (d : AssocList κ ν) (k : κ) : get (delete d k) k = none := by
  simp [get, delete]

omit [LawfulBEq κ] in
theorem nodup_delete (d : AssocList κ ν) (k : κ) (h : (d.map Prod.fst).Nodup) : ((delete d k).map Prod.fst).Nodup :=
  h.sublist (List.filter_sublist.map _)

theorem nodup_set (d : AssocList κ ν) (k : κ) (v : ν) (h : (d.map Prod.fst).Nodup) : ((set d k v).map Prod.fst).Nodup := by
  refine List.nodup_cons.2 ⟨fun hk => ?_, nodup_delete d k h⟩
  obtain ⟨p, hp, hpk⟩ := List.mem_map.1 hk
  exact absurd hpk (bne_iff_ne.1 (List.mem_filter.1 hp).2)

@[simp] theorem get_set_self (d : AssocList κ ν) (k : κ) (v : ν) : get (set d k v) k = some v := by
  simp [get, set]

theorem get_set_of_ne (d : AssocList κ ν) {k k' : κ} (v : ν) (h : k' ≠ k) : get (set d k v) k' = get d k' := by
  rw [← get_delete_of_ne d h]
  unfold get set
  rw [List.find?_cons_of_neg (by simp [Ne.symm h])]

theorem mem_of_get {d : AssocList κ ν} {k : κ} {v : ν} (h : get d k = some v) : (k, v) ∈ d := by
  obtain ⟨p, hp, rfl⟩ := Option.map_eq_some_iff.1 h
  have hk : p.1 = k := by simpa using List.find?_some hp
  rw [← hk]
  exact List.mem_of_find?_eq_some hp

theorem ne_of_get_none {d : AssocList κ ν} {k : κ} (h : get d k = none) {p : κ × ν} (hp : p ∈ d) : p.1 ≠ k := by
  have hnone := List.find?_eq_none.1 (Option.map_eq_none_iff.1 h) p hp
  simpa using hnone

omit [LawfulBEq κ] in
@[simp] theorem get_nil (k : κ) : get ([] : AssocList κ ν) k = none := rfl

@[simp] theorem get_cons_self (k : κ) (v : ν) (d : AssocList κ ν) : get ((k, v) :: d) k = some v := by
  simp [get]

theorem get_cons_of_ne {p : κ × ν} {k : κ} (h : p.1 ≠ k) (d : AssocList κ ν) : get (p :: d) k = get d k := by
  simp [get, h]

theorem eq_nil_of_get {d : AssocList κ ν} (h : ∀ k, get d k = none) : d = [] := by
  cases d with
  | nil => rfl
  | cons p d =>
    obtain ⟨k, v⟩ := p
    have hk := h k
    simp at hk

theorem get_eq_none {d : AssocList κ ν} {k : κ} (h : k ∉ d.map Prod.fst) : get d k = none := by
  cases hg : get d k with
  | none => rfl
  | some v => exact absurd (List.mem_map_of_mem (f := Prod.fst) (mem_of_get hg)) h

theorem get_of_mem {d : AssocList κ ν} (hd : (d.map Prod.fst).Nodup) {k : κ} {v : ν} (hp : (k, v) ∈ d) :
    get d k = some v := by
  induction d with
  | nil => simp at hp
  | cons q d ih =>
    obtain ⟨hq, hnd⟩ := List.nodup_cons.1 hd
    rcases List.mem_cons.1 hp with rfl | hp
    · simp
    · have hne : q.1 ≠ k := fun h => hq (h ▸ List.mem_map_of_mem (f := Prod.fst) hp)
      rw [get_cons_of_ne hne, ih hnd hp]

/-- Values changed in place. -/
theorem get_map {ν' : Type} (g : κ × ν → ν') (d : AssocList κ ν) (k : κ) :
    get (d.map fun p => (p.1, g p)) k = (get d k).map fun v => g (k, v) := by
  induction d with
  | nil => rfl
  | cons p d ih =>
    obtain ⟨k', v⟩ := p
    by_cases h : k' = k
    · subst h
      simp
    · rw [List.map_cons, get_cons_of_ne h, get_cons_of_ne h, ih]

/-- Bindings set one by one, each key once. -/
theorem get_foldl_set {d : AssocList κ ν} (hd : (d.map Prod.fst).Nodup) (t : AssocList κ ν) (k : κ) :
    get (d.foldl (fun t p => set t p.1 p.2) t) k = (get d k).or (get t k) := by
  induction d generalizing t with
  | nil => simp
  | cons p d ih =>
    obtain ⟨k', v⟩ := p
    obtain ⟨hp, hnd⟩ := List.nodup_cons.1 hd
    rw [List.foldl_cons, ih hnd]
    by_cases h : k' = k
    · subst h
      simp [get_eq_none hp]
    · rw [get_cons_of_ne h, get_set_of_ne _ _ (Ne.symm h)]

theorem get_foldl_set_of_not_mem {d : AssocList κ ν} {k : κ} (hk : k ∉ d.map Prod.fst) {t : AssocList κ ν} {v : Option ν}
    (ht : get t k = v) : get (d.foldl (fun t p => set t p.1 p.2) t) k = v := by
  induction d generalizing t with
  | nil => exact ht
  | cons p d ih =>
    rw [List.map_cons, List.mem_cons, not_or] at hk
    exact ih hk.2 ((get_set_of_ne t p.2 hk.1).trans ht)

end AssocList
