import Mathlib

/-!
# Calls that may crash

A call returns a value, returns an error, or crashes because it indexes or slices out of range.
Crashing is one more way to fail, so that sequencing stops there as it does for an error.  A chain
of checks returns no error when all of them pass (`ite_error_eq_ok_iff`).
-/

/-- A panic or an error. -/
inductive Fault (ε : Type) where
  | panic
  | err (e : ε)
  deriving DecidableEq

namespace Slices

variable {ε α β : Type} {r : Except (Fault ε) α} {xs : List α}

/-- The call gives back control, with a value or with an error. -/
def Returns (r : Except (Fault ε) α) : Prop := r ≠ .error .panic

/-- `xs[i]`. -/
def index (xs : List α) (i : ℕ) : Except (Fault ε) α :=
  match xs[i]? with
  | some a => .ok a
  | none => .error .panic

/-- `xs[lo:hi]`. -/
def slice (xs : List α) (lo hi : ℕ) : Except (Fault ε) (List α) :=
  if lo ≤ hi ∧ hi ≤ xs.length then .ok ((xs.take hi).drop lo) else .error .panic

/-- `xs[lo:]`. -/
def suffix (xs : List α) (lo : ℕ) : Except (Fault ε) (List α) :=
  if lo ≤ xs.length then .ok (xs.drop lo) else .error .panic

theorem ite_error_eq_ok_iff {c : Prop} [Decidable c] {e : ε} {x : Except ε α} {a : α} :
    (if c then .error e else x) = .ok a ↔ ¬c ∧ x = .ok a := by
  split_ifs with h
  · exact iff_of_false nofun fun h' => h'.1 h
  · exact (and_iff_right h).symm

@[simp] theorem returns_ok (a : α) : Returns (.ok a : Except (Fault ε) α) := nofun

@[simp] theorem returns_err (e : ε) : Returns (.error (.err e) : Except (Fault ε) α) := nofun

theorem returns_ite {c : Prop} [Decidable c] (e : ε) (a : α) :
    Returns (if c then .error (.err e) else .ok a : Except (Fault ε) α) := by
  split_ifs
  · exact returns_err e
  · exact returns_ok a

@[simp] theorem not_returns_panic : ¬ Returns (.error .panic : Except (Fault ε) α) :=
  fun h => h rfl

theorem returns_map (f : α → β) : Returns (r.map f) ↔ Returns r := by
  rcases r with (_ | e) | a <;> simp [Except.map]

variable {f : α → Except (Fault ε) β}

theorem returns_bind : Returns (r >>= f) ↔ Returns r ∧ ∀ a, r = .ok a → Returns (f a) := by
  rcases r with (_ | e) | a <;> simp [Bind.bind, Except.bind]

theorem slice_of_le {lo hi : ℕ} (h : lo ≤ hi) (h' : hi ≤ xs.length) :
    (slice xs lo hi : Except (Fault ε) (List α)) = .ok ((xs.take hi).drop lo) := if_pos ⟨h, h'⟩

theorem suffix_of_le {lo : ℕ} (h : lo ≤ xs.length) :
    (suffix xs lo : Except (Fault ε) (List α)) = .ok (xs.drop lo) := if_pos h

/-- Another type of errors. -/
def mapErr {δ : Type} (f : ε → δ) : Except (Fault ε) α → Except (Fault δ) α
  | .ok a => .ok a
  | .error .panic => .error .panic
  | .error (.err e) => .error (.err (f e))

section MapErr

variable {δ : Type} {f : ε → δ} {r : Except (Fault ε) α}

theorem returns_mapErr : Returns (mapErr f r) ↔ Returns r := by
  rcases r with (_ | e) | a <;> simp [mapErr]

theorem mapErr_eq_ok {a : α} : mapErr f r = .ok a ↔ r = .ok a := by
  rcases r with (_ | e) | a <;> simp [mapErr]

end MapErr

theorem bind_eq_ok {b : β} : r >>= f = .ok b ↔ ∃ a, r = .ok a ∧ f a = .ok b := by
  rcases r with e | a <;> simp [Bind.bind, Except.bind]

@[simp] theorem ok_bind (a : α) (f : α → Except (Fault ε) β) :
    ((.ok a : Except (Fault ε) α) >>= f) = f a := rfl

@[simp] theorem error_bind (e : Fault ε) (f : α → Except (Fault ε) β) :
    ((.error e : Except (Fault ε) α) >>= f) = .error e := rfl

theorem bind_congr_ok {g : α → Except (Fault ε) β} (h : ∀ a, r = .ok a → f a = g a) :
    r >>= f = r >>= g := by
  rcases r with e | a
  · rfl
  · exact h a rfl

end Slices
