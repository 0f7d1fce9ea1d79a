import Mathlib.Data.List.Basic

/-!
# Runs of a deterministic step function that may fail

A system is given by `step : σ → ι → Option σ`; `none` stops the run for good.  The choices of the
environment are part of the input.

* `run step s is` is the state after the inputs `is`, if none of the steps failed;
* `Always step P s is`: `P` holds in every state the run passes through, the first one included;
* `Throughout step C s is`: every input the run consumes meets `C` in the state it is consumed in.
-/

namespace Runs

variable {σ ι : Type*} (step : σ → ι → Option σ)

/-- The state after the inputs. -/
def run : σ → List ι → Option σ
  | s, [] => some s
  | s, i :: is => (step s i).bind fun t => run t is

/-- `P` holds in every state of the run. -/
def Always (P : σ → Prop) : σ → List ι → Prop
  | s, [] => P s
  | s, i :: is => P s ∧ ∀ t, step s i = some t → Always P t is

/-- Every input of the run meets `C` in the state it is consumed in. -/
def Throughout (C : σ → ι → Prop) : σ → List ι → Prop
  | _, [] => True
  | s, i :: is => C s i ∧ ∀ t, step s i = some t → Throughout C t is

variable {step}

@[simp] theorem run_nil (s : σ) : run step s [] = some s := rfl

@[simp] theorem run_cons (s : σ) (i : ι) (is : List ι) :
    run step s (i :: is) = (step s i).bind fun t => run step t is := rfl

theorem run_append (s : σ) (is js : List ι) :
    run step s (is ++ js) = (run step s is).bind fun t => run step t js := by
  induction is generalizing s with
  | nil => rfl
  | cons i is ih => simp [ih, Option.bind_assoc]

variable {I P : σ → Prop} {C : σ → ι → Prop} {is : List ι}

theorem run_invariant (keeps : ∀ s i t, I s → step s i = some t → I t) {s t : σ} (start : I s)
    (ran : run step s is = some t) : I t := by
  induction is generalizing s with
  | nil => exact Option.some.inj ran ▸ start
  | cons i is ih =>
    rw [run_cons, Option.bind_eq_some_iff] at ran
    obtain ⟨u, hu, ran⟩ := ran
    exact ih (keeps s i u start hu) ran

theorem run_invariant_of_throughout (keeps : ∀ s i t, I s → C s i → step s i = some t → I t) {s t : σ}
    (start : I s) (cond : Throughout step C s is) (ran : run step s is = some t) : I t := by
  induction is generalizing s with
  | nil => exact Option.some.inj ran ▸ start
  | cons i is ih =>
    rw [run_cons, Option.bind_eq_some_iff] at ran
    obtain ⟨u, hu, ran⟩ := ran
    exact ih (keeps s i u start cond.1 hu) (cond.2 u hu) ran

/-- A run never fails exactly when all its inputs meet `C`, if so for each step under the invariant.
-/
theorem run_isSome_iff_throughout (keeps : ∀ s i t, I s → step s i = some t → I t)
    (safe : ∀ s i, I s → ((step s i).isSome ↔ C s i)) {s : σ} (start : I s) (is : List ι) :
    (run step s is).isSome ↔ Throughout step C s is := by
  induction is generalizing s with
  | nil => exact iff_of_true rfl trivial
  | cons i is ih =>
    rw [run_cons, Throughout, ← safe s i start]
    cases hs : step s i with
    | none => simp
    | some t => simpa using ih (keeps s i t start hs)

theorem always_of_invariant (keeps : ∀ s i t, I s → step s i = some t → I t)
    (holds : ∀ s, I s → P s) {s : σ} (start : I s) (is : List ι) : Always step P s is := by
  induction is generalizing s with
  | nil => exact holds s start
  | cons i is ih => exact ⟨holds s start, fun t ht => ih (keeps s i t start ht)⟩

theorem always_of_throughout (keeps : ∀ s i t, I s → C s i → step s i = some t → I t)
    (holds : ∀ s, I s → P s)
    {s : σ} (start : I s) (cond : Throughout step C s is) : Always step P s is := by
  induction is generalizing s with
  | nil => exact holds s start
  | cons i is ih =>
    exact ⟨holds s start, fun t ht => ih (keeps s i t start cond.1 ht) (cond.2 t ht)⟩

theorem run_isSome_of_throughout (keeps : ∀ s i t, I s → C s i → step s i = some t → I t)
    (safe : ∀ s i, I s → C s i → (step s i).isSome) {s : σ} (start : I s)
    (cond : Throughout step C s is) :
    (run step s is).isSome := by
  induction is generalizing s with
  | nil => rfl
  | cons i is ih =>
    obtain ⟨t, ht⟩ := Option.isSome_iff_exists.1 (safe s i start cond.1)
    rw [run_cons, ht]
    exact ih (keeps s i t start cond.1 ht) (cond.2 t ht)

theorem throughout_of_invariant (keeps : ∀ s i t, I s → step s i = some t → I t)
    (holds : ∀ s i, I s → C s i) {s : σ} (start : I s) (is : List ι) : Throughout step C s is := by
  induction is generalizing s with
  | nil => trivial
  | cons i is ih => exact ⟨holds s i start, fun t ht => ih (keeps s i t start ht)⟩

theorem Throughout.imp {D : σ → ι → Prop} (keeps : ∀ s i t, I s → step s i = some t → I t)
    (imp : ∀ s i, I s → C s i → D s i) {s : σ} (start : I s) (h : Throughout step C s is) :
    Throughout step D s is := by
  induction is generalizing s with
  | nil => trivial
  | cons i is ih =>
    exact ⟨imp s i start h.1, fun t ht => ih (keeps s i t start ht) (h.2 t ht)⟩

theorem Always.head {s : σ} (h : Always step P s is) : P s := by
  cases is with
  | nil => exact h
  | cons i is => exact h.1

/-- `P` holds all along a run exactly when `C` does, if so for each step under the invariant. -/
theorem always_iff_throughout (keeps : ∀ s i t, I s → step s i = some t → I t)
    (exact : ∀ s i t, I s → P s → step s i = some t → (P t ↔ C s i))
    (stuck : ∀ s i, I s → step s i = none → C s i) {s : σ} (start : I s) (hP : P s) (is : List ι) :
    Always step P s is ↔ Throughout step C s is := by
  induction is generalizing s with
  | nil => exact iff_of_true hP trivial
  | cons i is ih =>
    cases hs : step s i with
    | none => simp [Always, Throughout, hs, hP, stuck s i start hs]
    | some t =>
      have next := exact s i t start hP hs
      simp only [Always, Throughout, hs, Option.some.injEq, forall_eq', hP, true_and]
      constructor
      · intro h
        exact ⟨next.1 h.head, (ih (keeps s i t start hs) h.head).1 h⟩
      · rintro ⟨hC, h⟩
        exact (ih (keeps s i t start hs) (next.2 hC)).2 h

end Runs
