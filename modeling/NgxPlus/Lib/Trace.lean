import Mathlib.Data.List.Basic

/-!
# Runs of a step function

`run step s cs` folds a list of calls over a state. `Always step C s cs` says that `C`
holds of every call of the run together with the state it is made in; a claim about
every reachable state, or about every step of every run, is an `Always` or a fact about
`run`. `run_inv` is the invariant rule (with a side condition on the steps taken), and
`always_congr` exchanges two conditions that agree in invariant states.

A condition may also look back at the calls made so far: `Always snoc C [] cs` is a run whose
state is its own history.

`StopsAt G R xs` is about one walk over a list: it goes on at every element in `G` and
comes to one in `R`.
-/

namespace Trace

variable {σ ι : Type} (step : σ → ι → σ)

def run : σ → List ι → σ
  | s, [] => s
  | s, c :: cs => run (step s c) cs

/-- Every call of the run meets `C` in the state it is made in. -/
def Always (C : σ → ι → Prop) : σ → List ι → Prop
  | _, [] => True
  | s, c :: cs => C s c ∧ Always C (step s c) cs

instance decidableAlways {C : σ → ι → Prop} [∀ s c, Decidable (C s c)] :
    (s : σ) → (cs : List ι) → Decidable (Always step C s cs)
  | _, [] => isTrue trivial
  | s, c :: cs =>
    have := decidableAlways (C := C) (step s c) cs
    inferInstanceAs (Decidable (C s c ∧ Always step C (step s c) cs))

@[simp] theorem run_nil (s : σ) : run step s [] = s := rfl

@[simp] theorem run_cons (s : σ) (c : ι) (cs : List ι) :
    run step s (c :: cs) = run step (step s c) cs := rfl

theorem run_append (s : σ) (as bs : List ι) :
    run step s (as ++ bs) = run step (run step s as) bs := by
  induction as generalizing s with
  | nil => rfl
  | cons a as ih => exact ih (step s a)

theorem run_concat (s : σ) (cs : List ι) (c : ι) :
    run step s (cs ++ [c]) = step (run step s cs) c := by
  rw [run_append]; rfl

theorem always_append {C : σ → ι → Prop} {s : σ} {as bs : List ι} :
    Always step C s (as ++ bs) ↔ Always step C s as ∧ Always step C (run step s as) bs := by
  induction as generalizing s with
  | nil => simp [Always]
  | cons a as ih => simp only [List.cons_append, Always, ih, run_cons, and_assoc]

theorem always_concat {C : σ → ι → Prop} {s : σ} {cs : List ι} {c : ι} :
    Always step C s (cs ++ [c]) ↔ Always step C s cs ∧ C (run step s cs) c := by
  rw [always_append]; simp [Always]

/-- `Always`, read off at one position of the run. -/
theorem always_iff {C : σ → ι → Prop} {s : σ} {cs : List ι} :
    Always step C s cs ↔ ∀ as c bs, cs = as ++ c :: bs → C (run step s as) c := by
  constructor
  · rintro h as c bs rfl
    exact ((always_append step).1 h).2.1
  · intro h
    induction cs generalizing s with
    | nil => trivial
    | cons c cs ih =>
      refine ⟨h [] c cs rfl, ih fun as d bs he => ?_⟩
      exact h (c :: as) d bs (by rw [he]; rfl)

theorem always_of_forall {P : σ → ι → Prop} (h : ∀ s c, P s c) (s : σ) (cs : List ι) :
    Always step P s cs := by
  induction cs generalizing s with
  | nil => trivial
  | cons c cs ih => exact ⟨h s c, ih (step s c)⟩

theorem Always.imp {C D : σ → ι → Prop} (h : ∀ s c, C s c → D s c) {s : σ} {cs : List ι}
    (hC : Always step C s cs) : Always step D s cs := by
  induction cs generalizing s with
  | nil => trivial
  | cons c cs ih => exact ⟨h s c hC.1, ih hC.2⟩

/-- **Invariant rule**: what one step with its side condition preserves, a run whose steps
all meet the condition preserves. -/
theorem run_inv {I : σ → Prop} {C : σ → ι → Prop}
    (hstep : ∀ s c, I s → C s c → I (step s c)) {s : σ} {cs : List ι}
    (h0 : I s) (hC : Always step C s cs) : I (run step s cs) := by
  induction cs generalizing s with
  | nil => exact h0
  | cons c cs ih => exact ih (hstep s c h0 hC.1) hC.2

/-- What the invariant and the side condition give of one step, holds of every step of the run. -/
theorem always_of_inv {I : σ → Prop} {P C : σ → ι → Prop} (hP : ∀ s c, I s → C s c → P s c)
    (hstep : ∀ s c, I s → C s c → I (step s c)) {s : σ} {cs : List ι} (h0 : I s)
    (hC : Always step C s cs) : Always step P s cs := by
  induction cs generalizing s with
  | nil => trivial
  | cons c cs ih => exact ⟨hP s c h0 hC.1, ih (hstep s c h0 hC.1) hC.2⟩

/-- Where, in invariant states, `P` and `C` say the same of a step and `P` keeps the
invariant, they say the same of a run. -/
theorem always_congr {I : σ → Prop} {P C : σ → ι → Prop}
    (hiff : ∀ s c, I s → (P s c ↔ C s c)) (hstep : ∀ s c, I s → P s c → I (step s c))
    {s : σ} (cs : List ι) (h0 : I s) : Always step P s cs ↔ Always step C s cs := by
  induction cs generalizing s with
  | nil => exact Iff.rfl
  | cons c cs ih =>
    constructor
    · rintro ⟨hP, hPs⟩
      exact ⟨(hiff s c h0).1 hP, (ih (hstep s c h0 hP)).1 hPs⟩
    · rintro ⟨hC, hCs⟩
      have hP := (hiff s c h0).2 hC
      exact ⟨hP, (ih (hstep s c h0 hP)).2 hCs⟩

/-! ## Histories -/

/-- The step that remembers: the state is the list of calls made. -/
def snoc (pre : List ι) (c : ι) : List ι := pre ++ [c]

theorem run_snoc (pre cs : List ι) : run snoc pre cs = pre ++ cs := by
  induction cs generalizing pre with
  | nil => exact (List.append_nil pre).symm
  | cons c cs ih => rw [run_cons, ih, snoc, List.append_assoc, List.singleton_append]

theorem always_snoc_concat {C : List ι → ι → Prop} {cs : List ι} {c : ι} :
    Always snoc C [] (cs ++ [c]) ↔ Always snoc C [] cs ∧ C cs c := by
  rw [always_concat, run_snoc, List.nil_append]

/-! ## Walks over a list -/

def StopsAt (G R : ι → Prop) (xs : List ι) : Prop :=
  ∃ pre x post, xs = pre ++ x :: post ∧ (∀ y ∈ pre, G y) ∧ R x

@[simp] theorem stopsAt_nil (G R : ι → Prop) : ¬ StopsAt G R [] := by
  rintro ⟨pre, x, post, he, -⟩
  simp at he

theorem stopsAt_cons {G R : ι → Prop} {x : ι} {xs : List ι} :
    StopsAt G R (x :: xs) ↔ R x ∨ G x ∧ StopsAt G R xs := by
  constructor
  · rintro ⟨pre, y, post, he, hpre, hy⟩
    cases pre with
    | nil =>
      obtain ⟨rfl, -⟩ := List.cons.inj he
      exact Or.inl hy
    | cons a pre =>
      obtain ⟨rfl, rfl⟩ := List.cons.inj he
      exact Or.inr ⟨hpre _ List.mem_cons_self, pre, y, post, rfl, fun z hz => hpre z (List.mem_cons_of_mem _ hz), hy⟩
  · rintro (h | ⟨hx, pre, y, post, rfl, hpre, hy⟩)
    · exact ⟨[], x, xs, rfl, by simp, h⟩
    · exact ⟨x :: pre, y, post, rfl, List.forall_mem_cons.2 ⟨hx, hpre⟩, hy⟩

end Trace
