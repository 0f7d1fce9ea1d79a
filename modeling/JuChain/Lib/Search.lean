import Mathlib

/-!
# Binary search

`search n p` is the binary search of Go's `sort.Search`: the least index below `n` at which `p`
holds, if `p` is false up to some index and true from there on.
-/

namespace Search

variable (p : ℕ → Bool)

/-- The loop of `search`. -/
def loop : ℕ → ℕ → ℕ → ℕ
  | 0, i, _ => i
  | fuel + 1, i, j =>
    if i < j then
      let h := (i + j) / 2
      if p h then loop fuel i h else loop fuel (h + 1) j
    else i

/-- `sort.Search`. -/
def search (n : ℕ) : ℕ := loop p n 0 n

variable {p}

theorem loop_eq {n k fuel i j : ℕ} (below : ∀ m < k, p m = false)
    (above : ∀ m, k ≤ m → m < n → p m = true)
    (hi : i ≤ k) (hj : k ≤ j) (hn : j ≤ n) (enough : j ≤ i + fuel) : loop p fuel i j = k := by
  induction fuel generalizing i j with
  | zero =>
    show i = k
    omega
  | succ fuel ih =>
    rw [loop]
    split_ifs with hlt
    · dsimp only
      split_ifs with hp
      · have hle : k ≤ (i + j) / 2 := by
          by_contra h
          rw [below _ (by omega)] at hp
          cases hp
        exact ih hi hle (by omega) (by omega)
      · have hlt : (i + j) / 2 < k := by
          by_contra h
          exact hp (above _ (by omega) (by omega))
        exact ih hlt hj hn (by omega)
    · omega

theorem search_eq {n k : ℕ} (hk : k ≤ n) (below : ∀ m < k, p m = false)
    (above : ∀ m, k ≤ m → m < n → p m = true) : search p n = k :=
  loop_eq below above (Nat.zero_le k) hk le_rfl (by omega)

end Search
