import Mathlib

/-!
# Mutable cells on a stack and in a pool

A program holds values in cells that it changes in place.  `Own s vs held` says that every live cell
is in one place only, that the values of the stack are `vs`, and which value each held cell has.
`Local s₀ s held` is for programs that write to cells of their own making only.
-/

namespace Cells

open scoped List

variable {α β γ : Type}

/-- A reference to a cell. -/
abbrev Ref := ℕ

/-- The cells, the stack and the pool of free cells. -/
structure Store (α : Type) where
  heap : Ref → α
  stack : List Ref
  pool : List Ref
  /-- No cell from here on is in use. -/
  fresh : Ref

/-- A program over the store, which may crash. -/
abbrev Prog (α β : Type) := StateT (Store α) Option β

/-- Pop the stack. -/
def pop : Prog α Ref := fun s =>
  match s.stack with
  | [] => none
  | r :: rest => some (r, { s with stack := rest })

/-- The top of the stack. -/
def peek : Prog α Ref := fun s =>
  match s.stack with
  | [] => none
  | r :: _ => some (r, s)

/-- Push onto the stack. -/
def push (r : Ref) : Prog α Unit := fun s => some ((), { s with stack := r :: s.stack })

/-- The contents of a cell. -/
def read (r : Ref) : Prog α α := fun s => some (s.heap r, s)

/-- Change a cell. -/
def write (r : Ref) (a : α) : Prog α Unit := fun s =>
  some ((), { s with heap := Function.update s.heap r a })

/-- A new cell. -/
def alloc (a : α) : Prog α Ref := fun s =>
  some (s.fresh, { s with heap := Function.update s.heap s.fresh a, fresh := s.fresh + 1 })

/-- A cell of the pool, with whatever it holds, or a new one with `zero`. -/
def take (zero : α) : Prog α Ref := fun s =>
  match s.pool with
  | [] => alloc zero s
  | r :: rest => some (r, { s with pool := rest })

/-- Give cells to the pool, unless it holds more than `limit` already. -/
def give (limit : ℕ) (rs : List Ref) : Prog α Unit := fun s =>
  some ((), if limit < s.pool.length then s else { s with pool := rs.reverse ++ s.pool })

theorem run_bind {m : Prog α β} {f : β → Prog α γ} {s s' : Store α} {b : β} (h : m s = some (b, s')) :
    (m >>= f) s = f b s' := by
  show (m s).bind _ = _
  rw [h]
  rfl

/-- Every live cell is in one place, with the values of the stack and of the held cells. -/
structure Own (s : Store α) (vs : List α) (held : List (Ref × α)) : Prop where
  values : s.stack.map s.heap = vs
  kept : ∀ p ∈ held, s.heap p.1 = p.2
  apart : (s.stack ++ held.map Prod.fst ++ s.pool).Nodup
  bounded : ∀ r ∈ s.stack ++ held.map Prod.fst ++ s.pool, r < s.fresh

/-- A store with the values on the stack. -/
def Store.ofList (zero : α) (vs : List α) : Store α where
  heap := fun r => vs.getD r zero
  stack := List.range vs.length
  pool := []
  fresh := vs.length

theorem own_ofList (zero : α) (vs : List α) : Own (Store.ofList zero vs) vs [] := by
  refine ⟨?_, nofun, ?_, ?_⟩
  · refine List.ext_getElem (by simp [Store.ofList]) fun i _ hi => ?_
    simp [Store.ofList, hi]
  · simpa [Store.ofList] using List.nodup_range
  · simp [Store.ofList]

section Rules

variable {s : Store α} {v : α} {vs : List α} {held held' : List (Ref × α)} {r : Ref}

theorem Own.pop (own : Own s (v :: vs) held) :
    ∃ r s', pop s = some (r, s') ∧ Own s' vs ((r, v) :: held) := by
  obtain ⟨values, kept, apart, bounded⟩ := own
  obtain ⟨r, rest, hs, hv, hvs⟩ := List.map_eq_cons_iff.1 values
  have moved : (r :: rest) ++ held.map Prod.fst ++ s.pool ~ rest ++ (r :: held.map Prod.fst) ++
      s.pool := by
    refine List.Perm.append_right _ ?_
    exact List.perm_middle.symm
  rw [hs] at apart bounded
  refine ⟨r, { s with stack := rest }, ?_, hvs, ?_, ?_, ?_⟩
  · rw [Cells.pop, hs]
  · exact List.forall_mem_cons.2 ⟨hv, kept⟩
  · exact moved.nodup_iff.1 apart
  · exact fun q hq => bounded q (moved.mem_iff.2 hq)

theorem Own.push (own : Own s vs ((r, v) :: held)) :
    ∃ s', push r s = some ((), s') ∧ Own s' (v :: vs) held := by
  obtain ⟨values, kept, apart, bounded⟩ := own
  have moved : (r :: s.stack) ++ held.map Prod.fst ++ s.pool ~
      s.stack ++ (r :: held.map Prod.fst) ++ s.pool := by
    refine List.Perm.append_right _ ?_
    exact List.perm_middle.symm
  refine ⟨{ s with stack := r :: s.stack }, rfl, ?_, fun p hp => kept p (List.mem_cons_of_mem _ hp),
    ?_, ?_⟩
  · have here : s.heap r = v := kept _ List.mem_cons_self
    rw [← values, ← here]
    rfl
  · exact moved.nodup_iff.2 apart
  · exact fun q hq => bounded q (moved.mem_iff.1 hq)

theorem Own.read (own : Own s vs held) (h : (r, v) ∈ held) : read r s = some (v, s) := by
  rw [Cells.read, own.kept _ h]

theorem Own.readFirst (own : Own s vs ((r, v) :: held)) : Cells.read r s = some (v, s) :=
  own.read List.mem_cons_self

variable {p q : Ref × α}

theorem Own.readSecond (own : Own s vs (p :: (r, v) :: held)) : Cells.read r s = some (v, s) :=
  own.read (List.mem_cons_of_mem _ List.mem_cons_self)

theorem Own.readThird (own : Own s vs (p :: q :: (r, v) :: held)) : Cells.read r s = some (v, s) :=
  own.read (List.mem_cons_of_mem _ (List.mem_cons_of_mem _ List.mem_cons_self))

theorem Own.write (own : Own s vs ((r, v) :: held)) (w : α) :
    ∃ s', write r w s = some ((), s') ∧ Own s' vs ((r, w) :: held) := by
  obtain ⟨values, kept, apart, bounded⟩ := own
  have apart' := (List.nodup_append.1 apart).1
  have ne_stack : ∀ q ∈ s.stack, q ≠ r := fun q hq =>
    (List.nodup_append.1 apart').2.2 q hq r List.mem_cons_self
  have ne_held : ∀ p ∈ held, p.1 ≠ r := by
    intro p hp heq
    have := (List.nodup_cons.1 (List.nodup_append.1 apart').2.1).1
    exact this (List.mem_map.2 ⟨p, hp, heq⟩)
  refine ⟨{ s with heap := Function.update s.heap r w }, rfl, ?_, ?_, apart, bounded⟩
  · rw [← values]
    exact List.map_congr_left fun q hq => Function.update_of_ne (ne_stack q hq) _ _
  · refine List.forall_mem_cons.2 ⟨Function.update_self .., fun p hp => ?_⟩
    rw [← kept p (List.mem_cons_of_mem _ hp)]
    exact Function.update_of_ne (ne_held p hp) _ _

theorem Own.peek (own : Own s (v :: vs) held) :
    ∃ r, peek s = some (r, s) ∧ Cells.read r s = some (v, s) ∧
      ∀ w, ∃ s', Cells.write r w s = some ((), s') ∧ Own s' (w :: vs) held ∧
        Cells.peek s' = some (r, s') := by
  obtain ⟨r, s₁, popped, own₁⟩ := own.pop
  obtain ⟨values, -, -, -⟩ := own
  obtain ⟨r', rest, hs, hv, -⟩ := List.map_eq_cons_iff.1 values
  have same : r = r' ∧ s₁ = { s with stack := rest } := by
    rw [Cells.pop, hs] at popped
    cases popped
    exact ⟨rfl, rfl⟩
  obtain ⟨rfl, rfl⟩ := same
  refine ⟨r, by rw [Cells.peek, hs], by rw [Cells.read, hv], fun w => ?_⟩
  obtain ⟨s₂, written, own₂⟩ := own₁.write w
  cases written
  obtain ⟨s₃, pushed, own₃⟩ := own₂.push
  cases pushed
  refine ⟨_, rfl, ?_, by rw [Cells.peek, hs]⟩
  rwa [hs]

theorem Own.alloc (own : Own s vs held) (w : α) :
    ∃ r s', alloc w s = some (r, s') ∧ Own s' vs ((r, w) :: held) := by
  obtain ⟨values, kept, apart, bounded⟩ := own
  have moved : s.stack ++ (s.fresh :: held.map Prod.fst) ++ s.pool ~
      s.fresh :: (s.stack ++ held.map Prod.fst ++ s.pool) := by
    rw [List.append_assoc, List.append_assoc]
    exact List.perm_middle
  have ne : ∀ q ∈ s.stack ++ held.map Prod.fst ++ s.pool, q ≠ s.fresh :=
    fun q hq => (bounded q hq).ne
  refine ⟨s.fresh, _, rfl, ?_, ?_, ?_, ?_⟩
  · rw [← values]
    refine List.map_congr_left fun q hq => Function.update_of_ne (ne q ?_) _ _
    exact List.mem_append_left _ (List.mem_append_left _ hq)
  · refine List.forall_mem_cons.2 ⟨Function.update_self .., fun p hp => ?_⟩
    rw [← kept p hp]
    refine Function.update_of_ne (ne p.1 ?_) _ _
    exact List.mem_append_left _ (List.mem_append_right _ (List.mem_map.2 ⟨p, hp, rfl⟩))
  · exact moved.nodup_iff.2 (List.nodup_cons.2 ⟨fun h => ne _ h rfl, apart⟩)
  · intro q hq
    rcases List.mem_cons.1 (moved.mem_iff.1 hq) with rfl | hq
    · exact Nat.lt_succ_self _
    · exact (bounded q hq).trans (Nat.lt_succ_self _)

theorem Own.take (own : Own s vs held) (zero : α) :
    ∃ r v s', take zero s = some (r, s') ∧ Own s' vs ((r, v) :: held) := by
  cases hp : s.pool with
  | nil =>
    obtain ⟨r, s', taken, own'⟩ := own.alloc zero
    exact ⟨r, zero, s', by rw [Cells.take, hp]; exact taken, own'⟩
  | cons r rest =>
    obtain ⟨values, kept, apart, bounded⟩ := own
    have moved : s.stack ++ held.map Prod.fst ++ (r :: rest) ~
        s.stack ++ (r :: held.map Prod.fst) ++ rest := by
      rw [List.append_assoc, List.append_assoc]
      exact List.Perm.append_left _ List.perm_middle
    rw [hp] at apart bounded
    refine ⟨r, s.heap r, { s with pool := rest }, by rw [Cells.take, hp], values, ?_, ?_, ?_⟩
    · exact List.forall_mem_cons.2 ⟨rfl, kept⟩
    · exact moved.nodup_iff.1 apart
    · exact fun q hq => bounded q (moved.mem_iff.2 hq)

theorem Own.forget (held' : List (Ref × α)) (own : Own s vs (held' ++ held)) : Own s vs held := by
  obtain ⟨values, kept, apart, bounded⟩ := own
  have sub : (s.stack ++ held.map Prod.fst ++ s.pool) <+
      (s.stack ++ (held' ++ held).map Prod.fst ++ s.pool) := by
    refine List.Sublist.append_right (List.Sublist.append_left ?_ _) _
    exact (List.sublist_append_right held' held).map _
  exact ⟨values, fun p hp => kept p (List.mem_append_right _ hp), apart.sublist sub,
    fun q hq => bounded q (sub.mem hq)⟩

theorem Own.perm (own : Own s vs held) (h : held' ~ held) : Own s vs held' := by
  obtain ⟨values, kept, apart, bounded⟩ := own
  have moved : s.stack ++ held'.map Prod.fst ++ s.pool ~ s.stack ++ held.map Prod.fst ++ s.pool :=
    List.Perm.append_right _ (List.Perm.append_left _ (h.map _))
  exact ⟨values, fun p hp => kept p (h.mem_iff.1 hp), moved.nodup_iff.2 apart,
    fun q hq => bounded q (moved.mem_iff.1 hq)⟩

theorem Own.swap (own : Own s vs (p :: q :: held)) : Own s vs (q :: p :: held) :=
  own.perm (List.Perm.swap p q held)

theorem Own.writeSecond (own : Own s vs (p :: (r, v) :: held)) (w : α) :
    ∃ s', Cells.write r w s = some ((), s') ∧ Own s' vs (p :: (r, w) :: held) := by
  obtain ⟨s', written, own'⟩ := own.swap.write w
  exact ⟨s', written, own'.swap⟩

theorem Own.writeThird (own : Own s vs (p :: q :: (r, v) :: held)) (w : α) :
    ∃ s', Cells.write r w s = some ((), s') ∧ Own s' vs (p :: q :: (r, w) :: held) := by
  have back (u : α) : q :: (r, u) :: p :: held ~ p :: q :: (r, u) :: held :=
    @List.perm_middle _ p [q, (r, u)] held
  obtain ⟨s', written, own'⟩ := (own.perm (back v)).writeSecond w
  exact ⟨s', written, own'.perm (back w).symm⟩

theorem Own.give (own : Own s vs (held' ++ held)) (limit : ℕ) {rs : List Ref}
    (hrs : rs ~ held'.map Prod.fst) : ∃ s', give limit rs s = some ((), s') ∧ Own s' vs held := by
  refine ⟨_, rfl, ?_⟩
  split_ifs with full
  · exact own.forget _
  · obtain ⟨values, kept, apart, bounded⟩ := own
    have moved : s.stack ++ (held' ++ held).map Prod.fst ++ s.pool ~
        s.stack ++ held.map Prod.fst ++ (rs.reverse ++ s.pool) := by
      rw [List.map_append, List.append_assoc, List.append_assoc, List.append_assoc]
      refine List.Perm.append_left _ ?_
      refine (List.perm_append_comm_assoc _ _ _).trans (List.Perm.append_left _ ?_)
      exact List.Perm.append_right _ (hrs.symm.trans (List.reverse_perm rs).symm)
    exact ⟨values, fun p hp => kept p (List.mem_append_right _ hp), moved.nodup_iff.1 apart,
      fun q hq => bounded q (moved.mem_iff.2 hq)⟩

end Rules

/-! ## Programs that write to new cells only -/

/-- The held cells are new since `s₀`, they have the given values, and the older cells are as in
`s₀`. -/
structure Local (s₀ s : Store α) (held : List (Ref × α)) : Prop where
  kept : ∀ p ∈ held, s.heap p.1 = p.2
  apart : (held.map Prod.fst).Nodup
  new : ∀ p ∈ held, s₀.fresh ≤ p.1 ∧ p.1 < s.fresh
  grown : s₀.fresh ≤ s.fresh
  old : ∀ q < s₀.fresh, s.heap q = s₀.heap q

section LocalRules

variable {s₀ s : Store α} {held : List (Ref × α)} {r : Ref} {v : α}

theorem Local.start (s : Store α) : Local s s [] where
  kept := nofun
  apart := List.nodup_nil
  new := nofun
  grown := le_rfl
  old := fun _ _ => rfl

theorem Local.read (h : Local s₀ s held) (mem : (r, v) ∈ held) : Cells.read r s = some (v, s) := by
  rw [Cells.read, h.kept _ mem]

theorem Local.readOld (h : Local s₀ s held) (known : r < s₀.fresh ∧ s₀.heap r = v) :
    Cells.read r s = some (v, s) := by
  rw [Cells.read, h.old r known.1, known.2]

theorem Local.alloc (h : Local s₀ s held) (w : α) :
    ∃ r s', alloc w s = some (r, s') ∧ Local s₀ s' ((r, w) :: held) := by
  refine ⟨s.fresh, _, rfl, ?_, ?_, ?_, h.grown.trans (Nat.le_succ _), ?_⟩
  · refine List.forall_mem_cons.2 ⟨Function.update_self .., fun p hp => ?_⟩
    rw [← h.kept p hp]
    exact Function.update_of_ne (h.new p hp).2.ne _ _
  · refine List.nodup_cons.2 ⟨fun mem => ?_, h.apart⟩
    obtain ⟨p, hp, heq⟩ := List.mem_map.1 mem
    exact (h.new p hp).2.ne heq
  · refine List.forall_mem_cons.2 ⟨⟨h.grown, Nat.lt_succ_self _⟩, fun p hp => ?_⟩
    exact ⟨(h.new p hp).1, (h.new p hp).2.trans (Nat.lt_succ_self _)⟩
  · intro q hq
    rw [← h.old q hq]
    exact Function.update_of_ne (hq.trans_le h.grown).ne _ _

theorem Local.write (before : List (Ref × α)) (h : Local s₀ s (before ++ (r, v) :: held)) (w : α) :
    ∃ s', write r w s = some ((), s') ∧ Local s₀ s' (before ++ (r, w) :: held) := by
  have mine : (r, v) ∈ before ++ (r, v) :: held := by simp
  have ne : ∀ p ∈ before ++ held, p.1 ≠ r := by
    intro p hp heq
    have apart := h.apart
    rw [(List.perm_middle.map Prod.fst).nodup_iff, List.map_cons, List.nodup_cons] at apart
    exact apart.1 (List.mem_map.2 ⟨p, hp, heq⟩)
  have cases_mem : ∀ p ∈ before ++ (r, w) :: held, p = (r, w) ∨ p ∈ before ++ held := by
    intro p hp
    exact List.mem_cons.1 (List.perm_middle.mem_iff.1 hp)
  have others : ∀ p ∈ before ++ held, p ∈ before ++ (r, v) :: held := by
    intro p hp
    exact List.perm_middle.mem_iff.2 (List.mem_cons_of_mem _ hp)
  refine ⟨{ s with heap := Function.update s.heap r w }, rfl, ?_, ?_, ?_, h.grown, ?_⟩
  · intro p hp
    rcases cases_mem p hp with rfl | hp
    · exact Function.update_self ..
    · rw [← h.kept p (others p hp)]
      exact Function.update_of_ne (ne p hp) _ _
  · have same : (before ++ (r, w) :: held).map Prod.fst = (before ++ (r, v) :: held).map Prod.fst := by
      simp
    rw [same]
    exact h.apart
  · intro p hp
    rcases cases_mem p hp with rfl | hp
    · exact h.new (r, v) mine
    · exact h.new p (others p hp)
  · intro q hq
    rw [← h.old q hq]
    exact Function.update_of_ne (hq.trans_le (h.new _ mine).1).ne _ _

end LocalRules

end Cells
