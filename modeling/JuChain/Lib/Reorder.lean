import Mathlib

/-!
# Workers and a reorder buffer

A dispatcher hands indexes to workers one after another and delivers their answers in this order,
although they finish in any order.  Every run ends (`wellFounded_step`), with one answer for each
index (`delivers_all`).
-/

namespace Reorder

open List

/-- A worker and its task. -/
inductive Worker where
  | idle
  | busy (index : ℕ)
  /-- It has written the answer and is about to report the index. -/
  | finished (index : ℕ)

/-- The index it is at. -/
def Worker.task : Worker → Option ℕ
  | idle => none
  | busy i | finished i => some i

/-- The steps it has left. -/
def Worker.weight : Worker → ℕ
  | idle => 0
  | busy _ => 3
  | finished _ => 2

/-- The workers and the answers. -/
structure State (ρ β : Type) where
  next : ℕ
  workers : List Worker
  done : List ℕ
  checked : List ℕ
  /-- The next index to deliver the answer of. -/
  out : ℕ
  answers : ℕ → β
  delivered : List β
  readings : ℕ → ρ

variable {ρ β : Type} {n capacity i : ℕ} {result : ρ → ℕ → β} {s t : State ρ β}

/-- All workers are idle. -/
def start (workers : ℕ) (reading : ρ) (blank : β) : State ρ β where
  next := 0
  workers := List.replicate workers .idle
  done := []
  checked := []
  out := 0
  answers := fun _ => blank
  delivered := []
  readings := fun _ => reading

/-- Deliver at most `k` answers, up to the first that is not ticked off. -/
def release : ℕ → State ρ β → State ρ β
  | 0, s => s
  | k + 1, s =>
    if s.out ∈ s.checked then
      release k { s with out := s.out + 1, delivered := s.delivered ++ [s.answers s.out] }
    else s

/-- The steps of the workers and the dispatcher, in any order. -/
inductive Step (n capacity : ℕ) (result : ρ → ℕ → β) (s : State ρ β) : State ρ β → Prop
  | hand (before after : List Worker) (hn : s.next < n) (hw : s.workers = before ++ .idle :: after) :
      Step n capacity result s
        { s with next := s.next + 1, workers := before ++ .busy s.next :: after }
  | work (before after : List Worker) (i : ℕ) (reading : ρ)
      (hw : s.workers = before ++ .busy i :: after) :
      Step n capacity result s { s with
        workers := before ++ .finished i :: after
        answers := Function.update s.answers i (result reading i)
        readings := Function.update s.readings i reading }
  | report (before after : List Worker) (i : ℕ) (hw : s.workers = before ++ .finished i :: after)
      (room : s.done.length < capacity) :
      Step n capacity result s { s with workers := before ++ .idle :: after, done := s.done ++ [i] }
  | collect (i : ℕ) (rest : List ℕ) (hd : s.done = i :: rest) (ho : s.out < n) :
      Step n capacity result s
        (release (n - s.out) { s with done := rest, checked := i :: s.checked })

theorem release_eq (k : ℕ) (s : State ρ β) : ∃ m ≤ k, release k s = { s with
        out := s.out + m
        delivered := s.delivered ++ (List.range' s.out m).map s.answers } ∧
      (∀ i, s.out ≤ i → i < s.out + m → i ∈ s.checked) ∧ (m < k → s.out + m ∉ s.checked) := by
  induction k generalizing s with
  | zero => exact ⟨0, le_rfl, by simp [release], fun i lo hi => by omega, fun h => by omega⟩
  | succ k ih =>
    rw [release]
    split_ifs with reached
    · obtain ⟨m, hm, released, upTo, gap⟩ :=
        ih { s with out := s.out + 1, delivered := s.delivered ++ [s.answers s.out] }
      refine ⟨m + 1, by omega, ?_, fun i lo hi => ?_, fun h => ?_⟩
      · rw [released]
        simp [range'_succ, Nat.add_assoc, Nat.add_comm 1 m]
      · by_cases same : i = s.out
        · exact same ▸ reached
        · exact upTo i (by grind) (by grind)
      · have order : s.out + (m + 1) = s.out + 1 + m := by omega
        exact order ▸ gap (by omega)
    · exact ⟨0, by omega, by simp, fun i lo hi => by omega, fun _ => reached⟩

/-! ## The invariant -/

/-- Every index handed out is in one place, and the answers up to the first gap were delivered. -/
structure Inv (n : ℕ) (result : ρ → ℕ → β) (s : State ρ β) : Prop where
  bound : s.next ≤ n
  tasks : (s.workers.filterMap Worker.task ++ s.done ++ s.checked).Perm (List.range s.next)
  written : ∀ i, .finished i ∈ s.workers ∨ i ∈ s.done ∨ i ∈ s.checked →
    s.answers i = result (s.readings i) i
  passed : ∀ i < s.out, i ∈ s.checked
  gap : s.out ∉ s.checked
  delivered : s.delivered = (List.range s.out).map fun i => result (s.readings i) i

theorem inv_start (workers : ℕ) (reading : ρ) (blank : β) :
    Inv n result (start workers reading blank) := by
  constructor <;> simp [start, Worker.task]

namespace Inv

theorem lt_of_checked (h : Inv n result s) (hi : i ∈ s.checked) : i < n :=
  (mem_range.1 (h.tasks.mem_iff.1 (mem_append_right _ hi))).trans_le h.bound

theorem out_le (h : Inv n result s) : s.out ≤ n := by
  by_contra beyond
  exact lt_irrefl n (h.lt_of_checked (h.passed n (not_le.1 beyond)))

theorem collect {rest : List ℕ} (h : Inv n result s) (hd : s.done = i :: rest) :
    Inv n result (release (n - s.out) { s with done := rest, checked := i :: s.checked }) := by
  have moved : (s.workers.filterMap Worker.task ++ rest ++ i :: s.checked).Perm
      (range s.next) := by
    refine Perm.trans ?_ h.tasks
    rw [hd, append_assoc, append_assoc]
    exact Perm.append_left _ perm_middle
  have within : ∀ j ∈ i :: s.checked, j < n := fun j hj =>
    (mem_range.1 (moved.mem_iff.1 (mem_append_right _ hj))).trans_le h.bound
  have answered : ∀ j ∈ i :: s.checked, s.answers j = result (s.readings j) j :=
    fun j hj => h.written j (by grind)
  obtain ⟨m, hm, released, upTo, gap⟩ :=
    release_eq (n - s.out) { s with done := rest, checked := i :: s.checked }
  rw [released]
  refine ⟨h.bound, moved, fun j hj => ?_, fun j hj => ?_, ?_, ?_⟩
  · rcases hj with mem | mem | mem
    · exact h.written j (Or.inl mem)
    · exact h.written j (by grind)
    · exact answered j mem
  · by_cases early : j < s.out
    · exact mem_cons_of_mem _ (h.passed j early)
    · exact upTo j (not_lt.1 early) hj
  · rcases hm.lt_or_eq with less | rfl
    · exact gap less
    · intro mem
      grind
  · show s.delivered ++ _ = _
    rw [h.delivered, range_add, map_append, range'_eq_map_range]
    congr 1
    refine map_congr_left fun j hj => ?_
    obtain ⟨d, hd, rfl⟩ := mem_map.1 hj
    exact answered _ (upTo _ (by simp) (by simpa using hd))

theorem step (h : Inv n result s) (hs : Step n capacity result s t) : Inv n result t := by
  obtain ⟨bound, tasks, written, passed, gap, delivered⟩ := id h
  cases hs with
  | hand before after hn hw =>
    refine ⟨hn, ?_, fun i hi => written i (by grind), passed, gap, delivered⟩
    simp only [hw, filterMap_append, filterMap_cons, Worker.task, append_assoc,
      cons_append, range_succ] at tasks ⊢
    exact perm_middle.trans ((tasks.cons _).trans (perm_append_singleton _ _).symm)
  | work before after i reading hw =>
    -- The index is at a worker, so it is not ticked off and its answer was not delivered.
    have away : i ∉ s.checked := by
      intro mem
      have apart := (tasks.nodup_iff.2 nodup_range)
      rw [nodup_append] at apart
      exact apart.2.2 i (by simp [hw, Worker.task]) i mem rfl
    refine ⟨bound, ?_, fun j hj => ?_, passed, gap, ?_⟩
    · simpa only [hw, filterMap_append, filterMap_cons, Worker.task] using tasks
    · by_cases same : j = i
      · simp [same]
      · simp only [Function.update_of_ne same]
        exact written j (by grind)
    · refine delivered.trans (map_congr_left fun j hj => ?_)
      have ne : j ≠ i := fun same => away (same ▸ passed j (mem_range.1 hj))
      simp only [Function.update_of_ne ne]
  | report before after i hw room =>
    refine ⟨bound, ?_, fun j hj => written j (by grind), passed, gap, delivered⟩
    simp only [hw, filterMap_append, filterMap_cons, Worker.task, append_assoc,
      cons_append, nil_append] at tasks ⊢
    refine Perm.trans (Perm.append_left _ ?_) tasks
    have moved := @List.perm_middle _ i (after.filterMap Worker.task ++ s.done) s.checked
    simpa only [append_assoc] using moved
  | collect i rest hd ho => exact h.collect hd

end Inv

/-! ## Runs -/

/-- The steps that are left. -/
def State.ahead (n : ℕ) (s : State ρ β) : ℕ :=
  4 * (n - s.next) + (s.workers.map Worker.weight).sum + s.done.length

theorem ahead_lt (hs : Step n capacity result s t) : t.ahead n < s.ahead n := by
  cases hs with
  | hand before after hn hw => simp [State.ahead, hw, Worker.weight]; omega
  | work before after i reading hw => simp [State.ahead, hw, Worker.weight]
  | report before after i hw room => simp [State.ahead, hw, Worker.weight]; omega
  | collect i rest hd ho =>
    obtain ⟨m, -, released, -⟩ :=
      release_eq (n - s.out) { s with done := rest, checked := i :: s.checked }
    rw [released]
    simp [State.ahead, hd]

theorem wellFounded_step (n capacity : ℕ) (result : ρ → ℕ → β) :
    WellFounded fun t s => Step n capacity result s t :=
  Subrelation.wf ahead_lt (measure (State.ahead n)).wf

theorem length_workers (hs : Step n capacity result s t) : t.workers.length = s.workers.length := by
  cases hs with
  | collect i rest hd ho =>
    obtain ⟨m, -, released, -⟩ :=
      release_eq (n - s.out) { s with done := rest, checked := i :: s.checked }
    rw [released]
  | _ => simp [*]

theorem exists_step [Inhabited ρ] (h : Inv n result s) (someone : s.workers ≠ [])
    (room : 0 < capacity) (missing : s.out < n) : ∃ t, Step n capacity result s t := by
  cases hd : s.done with
  | cons i rest => exact ⟨_, .collect i rest hd missing⟩
  | nil =>
    by_cases idle : ∀ w ∈ s.workers, w.task = none
    · -- Nobody works: if all indexes were handed out, all are ticked off, the missing one too.
      have all := h.tasks
      rw [filterMap_eq_nil_iff.2 idle, hd, append_nil, nil_append] at all
      have left : s.next < n := by
        by_contra full
        rw [le_antisymm h.bound (not_lt.1 full)] at all
        exact h.gap (all.mem_iff.2 (mem_range.2 missing))
      obtain ⟨w, rest, hw⟩ := exists_cons_of_ne_nil someone
      cases w with
      | idle => exact ⟨_, .hand [] rest left hw⟩
      | _ => simp [hw, Worker.task] at idle
    · push Not at idle
      obtain ⟨w, mem, busy⟩ := idle
      obtain ⟨before, after, hw⟩ := append_of_mem mem
      cases w with
      | idle => exact absurd rfl busy
      | busy i => exact ⟨_, .work before after i default hw⟩
      | finished i => exact ⟨_, .report before after i hw (by simpa [hd] using room)⟩

theorem not_step (k : ℕ) (idle : s.workers = replicate k .idle) (empty : s.done = [])
    (all : n ≤ s.next) : ¬ Step n capacity result s t := by
  intro hs
  cases hs with
  | hand before after hn hw => exact absurd hn (not_lt.2 all)
  | work before after i reading hw | report before after i hw room =>
    cases eq_of_mem_replicate (idle ▸ hw ▸ mem_append_right _ mem_cons_self)
  | collect i rest hd ho => cases empty.symm.trans hd

variable {workers : ℕ} {reading : ρ} {blank : β}

theorem inv_of_run (ran : Relation.ReflTransGen (Step n capacity result)
    (start workers reading blank) t) : Inv n result t ∧ t.workers.length = workers := by
  induction ran with
  | refl => exact ⟨inv_start .., by simp [start]⟩
  | tail _ hs ih => exact ⟨ih.1.step hs, (length_workers hs).trans ih.2⟩

theorem delivers_all [Inhabited ρ] (someone : 0 < workers) (room : 0 < capacity)
    (ran : Relation.ReflTransGen (Step n capacity result) (start workers reading blank) t)
    (finished : ∀ u, ¬ Step n capacity result t u) :
    t.delivered = (List.range n).map fun i => result (t.readings i) i := by
  obtain ⟨inv, count⟩ := inv_of_run ran
  rw [inv.delivered]
  by_contra short
  have missing : t.out < n := lt_of_le_of_ne inv.out_le fun h => short (by rw [h])
  obtain ⟨u, hu⟩ := exists_step inv (by rintro h; simp [h] at count; omega) room missing
  exact finished u hu

end Reorder
