import Mathlib.Data.List.Perm.Basic
import Mathlib.Tactic.SplitIfs

/-!
# Binary heaps in a list

The operations of Go's `container/heap`.  They only rearrange: whatever the order is, the list holds
the same elements afterwards (`fixHead_perm`), one more (`push_perm`) or one less
(`pop_perm`).
-/

namespace Heap

open List Option

variable {α : Type*}

/-- Swap two elements. -/
def swap (xs : List α) (i j : ℕ) : List α :=
  match xs[i]?, xs[j]? with
  | some a, some b => (xs.set i b).set j a
  | _, _ => xs

theorem swap_perm (xs : List α) (i j : ℕ) : (swap xs i j).Perm xs := by
  unfold swap
  split
  · rename_i a b ha hb
    obtain ⟨hi, rfl⟩ := List.getElem?_eq_some_iff.1 ha
    obtain ⟨hj, rfl⟩ := List.getElem?_eq_some_iff.1 hb
    exact List.set_set_perm hi hj
  · exact List.Perm.refl xs

variable (less : α → α → Bool)

/-- `less` at two positions. -/
def lessAt (xs : List α) (i j : ℕ) : Bool :=
  match xs[i]?, xs[j]? with
  | some a, some b => less a b
  | _, _ => false

/-- `up`: the element at `j` rises until its parent goes before it. -/
def up : ℕ → List α → ℕ → List α
  | 0, xs, _ => xs
  | fuel + 1, xs, j =>
    if (j - 1) / 2 = j ∨ lessAt less xs j ((j - 1) / 2) = false then xs
    else up fuel (swap xs ((j - 1) / 2) j) ((j - 1) / 2)

/-- The child of `i` that goes first, of those before `n`. -/
def child (xs : List α) (i n : ℕ) : ℕ :=
  if 2 * i + 2 < n ∧ lessAt less xs (2 * i + 2) (2 * i + 1) then 2 * i + 2 else 2 * i + 1

/-- `down`: the element at `i` sinks below the children that go before it, among the first `n`; also
where it ends. -/
def down : ℕ → List α → ℕ → ℕ → List α × ℕ
  | 0, xs, i, _ => (xs, i)
  | fuel + 1, xs, i, n =>
    if n ≤ 2 * i + 1 ∨ lessAt less xs (child less xs i n) i = false then (xs, i)
    else down fuel (swap xs i (child less xs i n)) (child less xs i n) n

/-- The loop of `init`. -/
def initFrom : ℕ → List α → List α
  | 0, xs => xs
  | i + 1, xs => initFrom i (down less xs.length xs i xs.length).1

/-- `heap.Init`. -/
def init (xs : List α) : List α := initFrom less (xs.length / 2) xs

/-- `heap.Push`. -/
def push (xs : List α) (x : α) : List α := up less (xs.length + 1) (xs ++ [x]) xs.length

/-- The first element is exchanged for the last one, which then sinks. -/
def firstToEnd (xs : List α) : List α :=
  (down less (xs.length - 1) (swap xs 0 (xs.length - 1)) 0 (xs.length - 1)).1

/-- `heap.Pop`. -/
def pop (xs : List α) : Option (α × List α) :=
  (firstToEnd less xs).getLast?.map fun x => (x, (firstToEnd less xs).dropLast)

/-- `Fix` of the first element, which can only sink. -/
def fixHead (xs : List α) : List α := (down less xs.length xs 0 xs.length).1

variable {less}

theorem up_perm (fuel : ℕ) (xs : List α) (j : ℕ) : (up less fuel xs j).Perm xs := by
  induction fuel generalizing xs j with
  | zero => exact Perm.refl xs
  | succ fuel ih =>
    unfold up
    split_ifs
    · exact Perm.refl xs
    · exact (ih _ _).trans (swap_perm xs _ _)

theorem down_perm (fuel : ℕ) (xs : List α) (i n : ℕ) : (down less fuel xs i n).1.Perm xs := by
  induction fuel generalizing xs i with
  | zero => exact Perm.refl xs
  | succ fuel ih =>
    unfold down
    split_ifs
    · exact Perm.refl xs
    · exact (ih _ _).trans (swap_perm xs _ _)

theorem fixHead_perm (xs : List α) : (fixHead less xs).Perm xs := down_perm _ _ _ _

theorem push_perm (xs : List α) (x : α) : (push less xs x).Perm (x :: xs) :=
  (up_perm _ _ _).trans (perm_append_singleton x xs)

theorem firstToEnd_perm (xs : List α) : (firstToEnd less xs).Perm xs :=
  (down_perm _ _ _ _).trans (swap_perm xs _ _)

variable {xs rest : List α}

theorem pop_perm {x : α} (h : pop less xs = some (x, rest)) : (x :: rest).Perm xs := by
  obtain ⟨y, hy, hpair⟩ := map_eq_some_iff.1 h
  obtain ⟨rfl, rfl⟩ := Prod.mk.inj hpair
  have split : (firstToEnd less xs).dropLast ++ [y] = firstToEnd less xs :=
    dropLast_append_getLast? y hy
  have moved := @firstToEnd_perm _ less xs
  rw [← split] at moved
  exact (perm_append_singleton y _).symm.trans moved

theorem pop_eq_none_iff : pop less xs = none ↔ xs = [] := by
  have moved := @firstToEnd_perm _ less xs
  unfold pop
  rw [map_eq_none_iff, getLast?_eq_none_iff]
  constructor
  · intro h
    rw [h] at moved
    exact moved.symm.eq_nil
  · rintro rfl
    exact moved.eq_nil

theorem getElem?_swap_of_ne {i j k : ℕ} (hi : k ≠ i) (hj : k ≠ j) : (swap xs i j)[k]? = xs[k]? := by
  unfold swap
  split
  · rw [getElem?_set_ne hj.symm, getElem?_set_ne hi.symm]
  · rfl

theorem getElem?_down_of_le {k n : ℕ} (hk : n ≤ k) (fuel : ℕ) (xs : List α) (i : ℕ) :
    (down less fuel xs i n).1[k]? = xs[k]? := by
  induction fuel generalizing xs i with
  | zero => rfl
  | succ fuel ih =>
    unfold down
    split_ifs with stop
    · rfl
    · have below : child less xs i n < n := by
        unfold child
        split_ifs <;> omega
      rw [ih, getElem?_swap_of_ne (by omega) (by omega)]

theorem head?_of_pop {x : α} (h : pop less xs = some (x, rest)) : xs.head? = some x := by
  obtain ⟨y, hy, hpair⟩ := map_eq_some_iff.1 h
  obtain ⟨rfl, -⟩ := Prod.mk.inj hpair
  have length : (firstToEnd less xs).length = xs.length := (firstToEnd_perm xs).length_eq
  rw [getLast?_eq_getElem?, length, firstToEnd, getElem?_down_of_le (Nat.le_refl _)] at hy
  rw [← hy]
  cases xs with
  | nil => rfl
  | cons z xs =>
    unfold swap
    rw [length_cons, Nat.add_sub_cancel]
    obtain ⟨w, hw⟩ : ∃ w, (z :: xs)[xs.length]? = some w :=
      ⟨_, getElem?_eq_getElem (by rw [length_cons]; omega)⟩
    rw [hw]
    dsimp only [getElem?_cons_zero]
    rw [getElem?_set_self (by rw [length_set, length_cons]; omega)]
    rfl

end Heap
