import Mathlib.Logic.Function.Basic

/-!
# Indexes

An index maps a key to at most one value, and is written by a list of bindings, the later ones
over the earlier ones.  A list of bindings that gives no key two values can be written in any order:
what the index then holds is the list, and its former contents where the list has no binding.
-/

namespace Index

open List Function

variable {κ ν : Type*} [DecidableEq κ]
variable (m : κ → Option ν)

/-- Put one entry. -/
def put (b : κ × ν) : κ → Option ν := Function.update m b.1 (some b.2)

/-- Put entries in order. -/
def putAll (bs : List (κ × ν)) : κ → Option ν := bs.foldl put m

/-- Erase a key. -/
def erase (k : κ) : κ → Option ν := Function.update m k none

/-- Erase keys. -/
def eraseAll (ks : List κ) : κ → Option ν := ks.foldl erase m

variable {m : κ → Option ν} {bs : List (κ × ν)} {k : κ} {v : ν}

theorem put_apply (m : κ → Option ν) (b : κ × ν) (k : κ) :
    put m b k = if k = b.1 then some b.2 else m k := update_apply ..

theorem put_self (m : κ → Option ν) (k : κ) (v : ν) : put m (k, v) k = some v :=
  update_self ..

theorem putAll_append (m : κ → Option ν) (bs cs : List (κ × ν)) :
    putAll m (bs ++ cs) = putAll (putAll m bs) cs := foldl_append

theorem putAll_of_notMem (h : ∀ b ∈ bs, b.1 ≠ k) : putAll m bs k = m k := by
  induction bs generalizing m with
  | nil => rfl
  | cons b bs ih =>
    show putAll (put m b) bs k = m k
    rw [ih fun c hc => h c (mem_cons_of_mem _ hc)]
    exact update_of_ne (h b mem_cons_self).symm _ _

theorem putAll_of_mem (hmem : (k, v) ∈ bs) (h : ∀ b ∈ bs, b.1 = k → b.2 = v) :
    putAll m bs k = some v := by
  induction bs generalizing m with
  | nil => simp at hmem
  | cons b bs ih =>
    show putAll (put m b) bs k = some v
    by_cases hrest : (k, v) ∈ bs
    · exact ih hrest fun c hc => h c (mem_cons_of_mem _ hc)
    · have hb : (k, v) = b := (mem_cons.1 hmem).resolve_right hrest
      rw [putAll_of_notMem, ← hb]
      · exact update_self _ _ _
      · intro c hc hck
        apply hrest
        rw [← hck, ← h c (mem_cons_of_mem _ hc) hck]
        exact hc

theorem eraseAll_apply (m : κ → Option ν) (ks : List κ) (k : κ) :
    eraseAll m ks k = if k ∈ ks then none else m k := by
  induction ks generalizing m with
  | nil => simp [eraseAll]
  | cons a ks ih =>
    show eraseAll (erase m a) ks k = _
    rw [ih]
    by_cases hk : k ∈ ks
    · simp [hk]
    · by_cases ha : k = a
      · simp [ha, erase]
      · simp [hk, ha, erase]

end Index
