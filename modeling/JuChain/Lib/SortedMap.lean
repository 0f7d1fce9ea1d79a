import Mathlib.Data.List.Basic
import Mathlib.Order.Nat
import Mathlib.Tactic.SplitIfs

/-!
# Maps with numeric keys, in order

A map whose values carry their own key, listed by increasing key.  Every operation that takes values
out returns them, so what was in the map is in the rest or among the returned values.
-/

/-- A list with rising keys. -/
structure SortedMap (α : Type*) (key : α → ℕ) where
  items : List α
  sorted : items.Pairwise fun a b => key a < key b

namespace SortedMap

open List

variable {α : Type*} {key : α → ℕ} {items : List α} {f : α → Bool}

instance : Membership α (SortedMap α key) := ⟨fun m x => x ∈ m.items⟩

instance [DecidableEq α] : DecidableEq (SortedMap α key) := fun m m' =>
  decidable_of_iff (m.items = m'.items) (by
    cases m
    cases m'
    simp)

/-- The empty map. -/
def empty : SortedMap α key := ⟨[], .nil⟩

@[simp] theorem notMem_empty (x : α) : x ∉ (empty : SortedMap α key) := not_mem_nil

variable {m : SortedMap α key} {x y : α}

theorem eq_of_key (hx : x ∈ m) (hy : y ∈ m) (h : key x = key y) : x = y := by
  have sorted := m.sorted
  have hx : x ∈ m.items := hx
  have hy : y ∈ m.items := hy
  generalize m.items = items at sorted hx hy
  induction sorted with
  | nil => exact nomatch hx
  | @cons z rest below _ ih =>
    rcases mem_cons.1 hx with hxz | hx
    · rcases mem_cons.1 hy with hyz | hy
      · exact hxz.trans hyz.symm
      · have := below y hy
        rw [hxz] at h
        omega
    · rcases mem_cons.1 hy with hyz | hy
      · have := below x hx
        rw [hyz] at h
        omega
      · exact ih hx hy

/-! ## Reading and writing -/

/-- The element at a key. -/
def get (m : SortedMap α key) (k : ℕ) : Option α := m.items.find? fun x => key x = k

theorem get_eq_some_iff {k : ℕ} : m.get k = some x ↔ x ∈ m ∧ key x = k := by
  constructor
  · intro h
    have found := find?_some h
    exact ⟨mem_of_find?_eq_some h, of_decide_eq_true found⟩
  · rintro ⟨hx, rfl⟩
    cases h : m.get (key x) with
    | none =>
      have := find?_eq_none.1 h x hx
      simp at this
    | some y =>
      have found := find?_some h
      rw [eq_of_key (mem_of_find?_eq_some h) hx (of_decide_eq_true found)]

theorem get_eq_none_iff {k : ℕ} : m.get k = none ↔ ∀ x ∈ m, key x ≠ k := by
  rw [get, find?_eq_none]
  simp only [decide_eq_true_eq]
  rfl

/-- A value put in its place, over the one with the same key. -/
def putList (key : α → ℕ) (x : α) : List α → List α
  | [] => [x]
  | y :: rest =>
    if key x < key y then x :: y :: rest
    else if key x = key y then x :: rest
    else y :: putList key x rest

theorem mem_putList (sorted : items.Pairwise fun a b => key a < key b) :
    y ∈ putList key x items ↔ y = x ∨ y ∈ items ∧ key y ≠ key x := by
  induction sorted with
  | nil => simp [putList]
  | @cons z rest below _ ih =>
    -- The keys after `z` differ from every key up to that of `z`.
    have later : ∀ w ∈ rest, key z < key w := below
    unfold putList
    split_ifs with hlt heq
    · simp only [mem_cons]
      constructor
      · rintro (rfl | rfl | hy)
        · exact .inl rfl
        · exact .inr ⟨.inl rfl, by omega⟩
        · have := later y hy
          exact .inr ⟨.inr hy, by omega⟩
      · rintro (rfl | ⟨hy, -⟩)
        · exact .inl rfl
        · exact .inr hy
    · simp only [mem_cons]
      constructor
      · rintro (rfl | hy)
        · exact .inl rfl
        · have := later y hy
          exact .inr ⟨.inr hy, by omega⟩
      · rintro (rfl | ⟨rfl | hy, hne⟩)
        · exact .inl rfl
        · exact absurd heq.symm hne
        · exact .inr hy
    · rw [mem_cons, ih, mem_cons]
      constructor
      · rintro (rfl | rfl | ⟨hy, hne⟩)
        · exact .inr ⟨.inl rfl, fun h => heq h.symm⟩
        · exact .inl rfl
        · exact .inr ⟨.inr hy, hne⟩
      · rintro (rfl | ⟨rfl | hy, hne⟩)
        · exact .inr (.inl rfl)
        · exact .inl rfl
        · exact .inr (.inr ⟨hy, hne⟩)

theorem sorted_putList (sorted : items.Pairwise fun a b => key a < key b) :
    (putList key x items).Pairwise fun a b => key a < key b := by
  induction sorted with
  | nil => exact pairwise_singleton _ x
  | @cons z rest below sorted ih =>
    unfold putList
    split_ifs with hlt heq
    · refine .cons (fun w hw => ?_) (.cons below sorted)
      rcases mem_cons.1 hw with rfl | hw
      · exact hlt
      · exact hlt.trans (below w hw)
    · exact .cons (fun w hw => heq ▸ below w hw) sorted
    · refine .cons (fun w hw => ?_) ih
      rcases (mem_putList sorted).1 hw with rfl | ⟨hw, -⟩
      · omega
      · exact below w hw

/-- Put an element, in place of the one with its key. -/
def put (m : SortedMap α key) (x : α) : SortedMap α key :=
  ⟨putList key x m.items, sorted_putList m.sorted⟩

theorem mem_put : y ∈ m.put x ↔ y = x ∨ y ∈ m ∧ key y ≠ key x := mem_putList m.sorted

/-! ## Taking out -/

/-- The elements that satisfy `f`, and the others. -/
def split (m : SortedMap α key) (f : α → Bool) : List α × SortedMap α key :=
  (m.items.filter f, ⟨m.items.filter fun x => !f x, m.sorted.filter _⟩)

theorem mem_split_fst : x ∈ (m.split f).1 ↔ x ∈ m ∧ f x = true := mem_filter

theorem mem_split_snd : x ∈ (m.split f).2 ↔ x ∈ m ∧ f x = false := by
  have : x ∈ m.items.filter (fun x => !f x) ↔ x ∈ m.items ∧ (!f x) = true := mem_filter
  rw [Bool.not_eq_true'] at this
  exact this

/-- The values beyond the first `n`, highest key first, and the first `n`. -/
def cap (m : SortedMap α key) (n : ℕ) : List α × SortedMap α key :=
  ((m.items.drop n).reverse, ⟨m.items.take n, m.sorted.sublist (List.take_sublist n m.items)⟩)

theorem mem_cap {n : ℕ} : x ∈ m ↔ x ∈ (m.cap n).1 ∨ x ∈ (m.cap n).2 := by
  have parts : x ∈ m.items ↔ x ∈ m.items.drop n ∨ x ∈ m.items.take n := by
    conv_lhs => rw [← take_append_drop n m.items]
    rw [mem_append, or_comm]
  show x ∈ m.items ↔ x ∈ (m.items.drop n).reverse ∨ x ∈ m.items.take n
  rw [mem_reverse]
  exact parts

theorem key_lt_of_mem_cap {n : ℕ} (hx : x ∈ (m.cap n).2) (hy : y ∈ (m.cap n).1) : key x < key y := by
  have sorted := m.sorted
  rw [← take_append_drop n m.items, pairwise_append] at sorted
  exact sorted.2.2 x hx y (mem_reverse.1 hy)

/-- The longest beginning with the keys `next`, `next + 1` and so on, and the rest. -/
def run (key : α → ℕ) : ℕ → List α → List α × List α
  | _, [] => ([], [])
  | next, x :: rest =>
    if key x = next then (x :: (run key (next + 1) rest).1, (run key (next + 1) rest).2)
    else ([], x :: rest)

theorem run_append (next : ℕ) (items : List α) :
    (run key next items).1 ++ (run key next items).2 = items := by
  induction items generalizing next with
  | nil => rfl
  | cons x rest ih =>
    unfold run
    split_ifs
    · rw [cons_append, ih]
    · rfl

theorem run_sublist (next : ℕ) (items : List α) : (run key next items).2.Sublist items := by
  have parts := sublist_append_right (run key next items).1 (run key next items).2
  rwa [run_append] at parts

theorem run_keys (next : ℕ) (items : List α) :
    (run key next items).1.map key = List.range' next (run key next items).1.length := by
  induction items generalizing next with
  | nil => rfl
  | cons x rest ih =>
    unfold run
    split_ifs with h
    · rw [map_cons, ih, length_cons, range'_succ, h]
    · rfl

theorem key_ne_of_mem_run {next : ℕ} (sorted : items.Pairwise fun a b => key a < key b)
    (from_next : ∀ x ∈ items, next ≤ key x) (hx : x ∈ (run key next items).2) :
    next + (run key next items).1.length < key x := by
  induction sorted generalizing next with
  | nil => exact nomatch hx
  | @cons z rest below _ ih =>
    unfold run at hx ⊢
    split_ifs at hx ⊢ with h
    · have := ih (fun w hw => by have := below w hw; omega) hx
      rw [length_cons]
      omega
    · have hz := from_next z mem_cons_self
      rcases mem_cons.1 hx with rfl | hx
      · rw [length_nil]
        omega
      · have := below x hx
        rw [length_nil]
        omega

/-- The values with consecutive keys from the lowest one, if that is at most `start`. -/
def ready (m : SortedMap α key) (start : ℕ) : List α × SortedMap α key :=
  match m.items.head? with
  | none => ([], m)
  | some first =>
    if start < key first then ([], m)
    else
      ((run key (key first) m.items).1, ⟨(run key (key first) m.items).2,
        m.sorted.sublist (run_sublist _ _)⟩)

/-- What `ready` takes out of the map `m` and leaves in `rest`. -/
structure Ready (m : SortedMap α key) (start : ℕ) (out : List α) (rest : SortedMap α key) : Prop where
  mem : ∀ x, x ∈ m ↔ x ∈ out ∨ x ∈ rest
  above : out = [] → ∀ x ∈ m, start < key x
  run : out ≠ [] → ∃ first, out.map key = List.range' first out.length ∧ first ≤ start ∧
    (∀ x ∈ m, first ≤ key x) ∧ ∀ x ∈ rest, first + out.length < key x

theorem ready_spec (m : SortedMap α key) (start : ℕ) :
    Ready m start (m.ready start).1 (m.ready start).2 := by
  have sorted := m.sorted
  unfold ready
  cases hhead : m.items.head? with
  | none =>
    have none_in : ∀ x, x ∉ m := by
      intro x hx
      have hx : x ∈ m.items := hx
      rw [head?_eq_none_iff.1 hhead] at hx
      exact nomatch hx
    exact ⟨fun x => by simp, fun _ x hx => absurd hx (none_in x), fun h => absurd rfl h⟩
  | some first =>
    obtain ⟨rest, hitems⟩ := head?_eq_some_iff.1 hhead
    have lowest : ∀ x ∈ m, key first ≤ key x := by
      intro x hx
      have hx : x ∈ m.items := hx
      rw [hitems] at hx sorted
      rcases mem_cons.1 hx with rfl | hx
      · exact le_rfl
      · exact (rel_of_pairwise_cons sorted hx).le
    dsimp only
    split_ifs with hlt
    · refine ⟨fun x => by simp, fun _ x hx => ?_, fun h => absurd rfl h⟩
      have := lowest x hx
      omega
    · have started : (SortedMap.run key (key first) m.items).1 ≠ [] := by
        rw [hitems, SortedMap.run, if_pos rfl]
        exact cons_ne_nil _ _
      refine ⟨fun x => ?_, fun h => absurd h started, fun _ => ⟨key first, run_keys _ _, by omega,
        lowest, fun x hx => key_ne_of_mem_run m.sorted lowest hx⟩⟩
      show x ∈ m.items ↔ x ∈ (SortedMap.run key (key first) m.items).1 ∨
        x ∈ (SortedMap.run key (key first) m.items).2
      rw [← mem_append, run_append]

/-! ## Parts -/

/-- The map is cut into two parts. -/
def Parts (m : SortedMap α key) (out : List α) (rest : SortedMap α key) : Prop :=
  (out ++ rest.items).Perm m.items

theorem parts_nil (m : SortedMap α key) : Parts m [] m := Perm.refl _

theorem parts_split (m : SortedMap α key) (f : α → Bool) :
    Parts m (m.split f).1 (m.split f).2 := filter_append_perm f m.items

theorem parts_cap (m : SortedMap α key) (n : ℕ) : Parts m (m.cap n).1 (m.cap n).2 := by
  have swapped : (m.items.drop n ++ m.items.take n).Perm m.items := by
    conv_rhs => rw [← take_append_drop n m.items]
    exact perm_append_comm
  exact ((reverse_perm _).append_right _).trans swapped

theorem parts_ready (m : SortedMap α key) (start : ℕ) :
    Parts m (m.ready start).1 (m.ready start).2 := by
  unfold ready
  cases m.items.head? with
  | none => exact parts_nil m
  | some first =>
    dsimp only
    split_ifs
    · exact parts_nil m
    · show ((run key (key first) m.items).1 ++ (run key (key first) m.items).2).Perm m.items
      rw [run_append]

namespace Parts

variable {m rest : SortedMap α key} {out : List α}

section

variable (h : Parts m out rest)
include h

theorem perm {out' : List α} (perm : out'.Perm out) : Parts m out' rest :=
  (perm.append_right _).trans h

theorem trans {out' : List α} {rest' : SortedMap α key} (h' : Parts rest out' rest') :
    Parts m (out ++ out') rest' := by
  unfold Parts
  rw [append_assoc]
  exact (h'.append_left out).trans h

theorem mem_iff {x : α} : x ∈ m ↔ x ∈ out ∨ x ∈ rest := by
  have members : x ∈ out ++ rest.items ↔ x ∈ m.items := Perm.mem_iff h
  rw [mem_append] at members
  exact members.symm

theorem keys_ne : (out ++ rest.items).Pairwise fun a b => key a ≠ key b := by
  have distinct : m.items.Pairwise fun a b => key a ≠ key b := m.sorted.imp fun hlt => hlt.ne
  exact (h.symm.pairwise_iff fun hne => hne.symm).1 distinct

theorem out_keys_ne : out.Pairwise fun a b => key a ≠ key b :=
  (pairwise_append.1 h.keys_ne).1

theorem key_ne {x : α} (hx : x ∈ out) (hy : y ∈ rest) : key x ≠ key y :=
  (pairwise_append.1 h.keys_ne).2.2 x hx y hy

end

end Parts

end SortedMap
