import Mathlib

/-!
# Lists of records with distinct keys

A map whose values know their key, listed in some order.  `find`, `replace` and `erase` go by the
key; the lemmas say which records are there afterwards, and how a sum over all records changes.
-/

namespace Keyed

open List

variable {α K : Type} [DecidableEq K] (key : α → K)

/-- The element with the key. -/
def find (k : K) (xs : List α) : Option α := xs.find? fun x => key x = k

/-- Replace the element with the same key. -/
def replace (x : α) (xs : List α) : List α := xs.map fun y => if key y = key x then x else y

/-- Erase the key. -/
def erase (k : K) (xs : List α) : List α := xs.filter fun x => key x ≠ k

/-- No two elements have one key. -/
def Distinct (xs : List α) : Prop := (xs.map key).Nodup

variable {key} {k : K} {x y : α} {xs : List α}

omit [DecidableEq K] in
theorem Distinct.eq (distinct : Distinct key xs) (hx : x ∈ xs) (hy : y ∈ xs) (same : key x = key y) :
    x = y :=
  inj_on_of_nodup_map distinct hx hy same

theorem mem_of_find (found : find key k xs = some x) : x ∈ xs := mem_of_find?_eq_some found

theorem key_of_find (found : find key k xs = some x) : key x = k := by
  simpa using find?_some found

theorem find_eq_none : find key k xs = none ↔ ∀ x ∈ xs, key x ≠ k := by
  simp [find, find?_eq_none]

theorem find_eq_some (distinct : Distinct key xs) (hx : x ∈ xs) : find key (key x) xs = some x := by
  cases found : find key (key x) xs with
  | none => exact absurd rfl (find_eq_none.1 found x hx)
  | some y => rw [distinct.eq (mem_of_find found) hx (key_of_find found)]

theorem keys_replace : (replace key x xs).map key = xs.map key := by
  unfold replace
  rw [map_map]
  refine map_congr_left fun y _ => ?_
  dsimp only [Function.comp]
  split_ifs with same
  · exact same.symm
  · rfl

theorem Distinct.replace (distinct : Distinct key xs) : Distinct key (replace key x xs) := by
  unfold Distinct
  rw [keys_replace]
  exact distinct

theorem mem_replace_of_ne (ne : key y ≠ key x) : y ∈ replace key x xs ↔ y ∈ xs := by
  simp only [replace, mem_map]
  constructor
  · rintro ⟨z, hz, rfl⟩
    split_ifs at ne ⊢ with same
    · exact absurd rfl ne
    · exact hz
  · intro hy
    exact ⟨y, hy, if_neg ne⟩

theorem mem_replace_self (hy : y ∈ xs) (same : key y = key x) : x ∈ replace key x xs :=
  mem_map.2 ⟨y, hy, if_pos same⟩

theorem mem_replace (hy : y ∈ replace key x xs) : y = x ∨ y ∈ xs ∧ key y ≠ key x := by
  obtain ⟨z, hz, rfl⟩ := mem_map.1 hy
  split_ifs with same
  · exact .inl rfl
  · exact .inr ⟨hz, same⟩

theorem mem_erase : y ∈ erase key k xs ↔ y ∈ xs ∧ key y ≠ k := by
  simp [erase]

theorem Distinct.erase (distinct : Distinct key xs) : Distinct key (erase key k xs) :=
  distinct.sublist (filter_sublist.map key)

theorem erase_replace : erase key (key x) (replace key x xs) = erase key (key x) xs := by
  induction xs with
  | nil => rfl
  | cons y rest ih =>
    by_cases same : key y = key x
    · simpa [erase, replace, same] using ih
    · simpa [erase, replace, same] using ih

theorem Distinct.append (distinct : Distinct key xs) (absent : find key (key x) xs = none) :
    Distinct key (xs ++ [x]) := by
  unfold Distinct
  rw [map_append, map_singleton, nodup_append]
  refine ⟨distinct, nodup_singleton _, ?_⟩
  rintro _ hk _ hx rfl
  obtain ⟨y, hy, rfl⟩ := mem_map.1 hk
  exact find_eq_none.1 absent y hy (mem_singleton.1 hx)

variable (f : α → ℕ)

theorem sum_erase (distinct : Distinct key xs) (hx : x ∈ xs) :
    ((erase key (key x) xs).map f).sum + f x = (xs.map f).sum := by
  induction xs with
  | nil => exact nomatch hx
  | cons y rest ih =>
    have unique := nodup_cons.1 distinct
    obtain rfl | hx := mem_cons.1 hx
    · have absent : erase key (key x) rest = rest :=
        filter_eq_self.2 fun z hz => by
          have ne : key z ≠ key x := fun same => unique.1 (same ▸ mem_map_of_mem hz)
          simpa using ne
      have head : erase key (key x) (x :: rest) = erase key (key x) rest := by simp [erase]
      rw [head, absent, map_cons, sum_cons, Nat.add_comm]
    · have ne : key y ≠ key x := fun same => unique.1 (same ▸ mem_map_of_mem hx)
      have head : erase key (key x) (y :: rest) = y :: erase key (key x) rest := by simp [erase, ne]
      rw [head, map_cons, map_cons, sum_cons, sum_cons, Nat.add_assoc,
        ih unique.2 hx]

theorem sum_replace (distinct : Distinct key xs) (hy : y ∈ xs) (same : key y = key x) :
    ((replace key x xs).map f).sum + f y = (xs.map f).sum + f x := by
  have new := sum_erase f distinct.replace (mem_replace_self hy same)
  have old := sum_erase f distinct hy
  rw [erase_replace] at new
  rw [same] at old
  omega

end Keyed
