import Mathlib.Logic.Function.Iterate
import Mathlib.Order.Nat

/-!
# Undo journals

A state keeps a journal of its changes; `depth` is its length and `pop` takes back the newest
change.  A state *rewinds* to an earlier one when taking back what was added since gives it back.
Changes compose, so it is enough to look at one entry at a time.
-/

namespace Journal

variable {σ : Type*} (pop : σ → σ) (depth : σ → ℕ)

/-- Taking back the changes since `s` leads from `t` back to `s`. -/
def Rewinds (s t : σ) : Prop := depth s ≤ depth t ∧ pop^[depth t - depth s] t = s

/-- Take back changes until the journal has length `n`. -/
def revertTo (n : ℕ) (t : σ) : σ := pop^[depth t - n] t

variable {pop depth} {s t u : σ}

theorem Rewinds.refl (s : σ) : Rewinds pop depth s s := ⟨le_rfl, by rw [Nat.sub_self]; rfl⟩

theorem Rewinds.of_pop (h : depth t = depth s + 1) (hpop : pop t = s) : Rewinds pop depth s t :=
  ⟨by omega, by rw [h, Nat.add_sub_cancel_left, Function.iterate_one, hpop]⟩

section

variable (h : Rewinds pop depth s t)
include h

theorem Rewinds.trans (h' : Rewinds pop depth t u) : Rewinds pop depth s u := by
  obtain ⟨hle, hpop⟩ := h
  obtain ⟨hle', hpop'⟩ := h'
  refine ⟨hle.trans hle', ?_⟩
  have split : depth u - depth s = (depth t - depth s) + (depth u - depth t) := by omega
  rw [split, Function.iterate_add_apply, hpop', hpop]

theorem Rewinds.back (hlt : depth s < depth t) (hpop : depth (pop t) + 1 = depth t) :
    Rewinds pop depth s (pop t) := by
  refine ⟨by omega, ?_⟩
  have split : depth t - depth s = (depth (pop t) - depth s) + 1 := by omega
  have := h.2
  rwa [split, Function.iterate_succ_apply] at this

theorem Rewinds.eq (hd : depth t = depth s) : t = s := by
  have := h.2
  rwa [hd, Nat.sub_self] at this

theorem Rewinds.revertTo_eq : revertTo pop depth (depth s) t = s := h.2

end

end Journal
