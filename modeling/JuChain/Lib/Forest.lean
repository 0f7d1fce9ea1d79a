import Mathlib.Data.Nat.Notation
import Mathlib.Logic.Relation

/-!
# Forests given by parent pointers

A path is the list of nodes between a node and one of its ancestors, the upper end included and the
lower one not.  `Path.anc_iff` splits the ancestors of a node at any node of its chain.
-/

/-- Nodes with unique parents, one lower. -/
structure Forest (β : Type*) where
  Parent : β → β → Prop
  height : β → ℕ
  parent_unique : ∀ {b p q}, Parent b p → Parent b q → p = q
  height_parent : ∀ {b p}, Parent b p → height b = height p + 1

namespace Forest

open Relation.ReflTransGen

variable {β : Type*} (F : Forest β) {a b c d p : β} {bs cs : List β}

/-- `F.Anc a b`: the node `a` is `b` or one of its ancestors. -/
def Anc (a b : β) : Prop := Relation.ReflTransGen F.Parent b a

/-- `F.Path b bs c`: from `b` through the parents of `bs`, in this order, to `c`. -/
inductive Path : β → List β → β → Prop
  | nil (b : β) : Path b [] b
  | cons {b p c : β} {bs : List β} : F.Parent b p → Path p bs c → Path b (b :: bs) c

variable {F}

/-! ## Ancestors -/

theorem Anc.refl (a : β) : F.Anc a a := Relation.ReflTransGen.refl

theorem Anc.trans (ab : F.Anc a b) (bc : F.Anc b c) : F.Anc a c :=
  Relation.ReflTransGen.trans bc ab

theorem Anc.of_parent (h : F.Parent b p) : F.Anc p b := single h

theorem anc_iff_of_parent (h : F.Parent b p) : F.Anc a b ↔ a = b ∨ F.Anc a p := by
  constructor
  · intro ab
    rcases cases_head ab with rfl | ⟨q, hq, aq⟩
    · exact .inl rfl
    · rw [F.parent_unique h hq]
      exact .inr aq
  · rintro (rfl | ap)
    · exact Anc.refl a
    · exact ap.trans (Anc.of_parent h)

theorem Anc.height_le (h : F.Anc a b) : F.height a ≤ F.height b := by
  induction h with
  | refl => exact Nat.le_refl _
  | tail _ hp ih =>
    have := F.height_parent hp
    omega

theorem Anc.eq_of_height_le (h : F.Anc a b) (hle : F.height b ≤ F.height a) : a = b := by
  rcases cases_head h with rfl | ⟨p, hp, ap⟩
  · rfl
  · have := F.height_parent hp
    have := Anc.height_le ap
    omega

theorem Anc.of_height_le (ac : F.Anc a c) (bc : F.Anc b c) (hle : F.height a ≤ F.height b) :
    F.Anc a b := by
  have unique : Relator.RightUnique F.Parent := fun _ _ _ => F.parent_unique
  rcases total_of_right_unique unique ac bc with h | h
  · rw [Anc.eq_of_height_le h hle]
    exact Anc.refl a
  · exact h

theorem Anc.unique (ac : F.Anc a c) (bc : F.Anc b c) (h : F.height a = F.height b) : a = b :=
  (ac.of_height_le bc (Nat.le_of_eq h)).eq_of_height_le (Nat.le_of_eq h.symm)

theorem Anc.exists_height (h : F.Anc a b) {n : ℕ} (han : F.height a ≤ n) (hnb : n ≤ F.height b) :
    ∃ x, F.Anc x b ∧ F.height x = n := by
  induction h using head_induction_on with
  | refl => exact ⟨a, Anc.refl a, by omega⟩
  | @head b p hp _ ih =>
    have hb := F.height_parent hp
    by_cases hn : n = F.height b
    · exact ⟨b, Anc.refl b, hn.symm⟩
    · obtain ⟨x, hx, hxn⟩ := ih (by omega)
      exact ⟨x, hx.trans (Anc.of_parent hp), hxn⟩

/-! ## Paths -/

section

variable (h : F.Path b bs c)
include h

theorem Path.append (h' : F.Path c cs d) : F.Path b (bs ++ cs) d := by
  induction h with
  | nil => exact h'
  | cons hp _ ih => exact .cons hp (ih h')

theorem Path.anc : F.Anc c b := by
  induction h with
  | nil b => exact Anc.refl b
  | cons hp _ ih => exact ih.trans (Anc.of_parent hp)

theorem Path.anc_iff : F.Anc a b ↔ a ∈ bs ∨ F.Anc a c := by
  induction h with
  | nil => simp
  | cons hp _ ih => rw [anc_iff_of_parent hp, ih, List.mem_cons, or_assoc]

theorem Path.height_lt (ha : a ∈ bs) : F.height c < F.height a := by
  induction h with
  | nil => simp at ha
  | cons hp path ih =>
    rcases List.mem_cons.1 ha with rfl | ha
    · have := F.height_parent hp
      have := path.anc.height_le
      omega
    · exact ih ha

theorem Path.height_le (ha : a ∈ bs) : F.height a ≤ F.height b :=
  (h.anc_iff.2 (.inl ha)).height_le

theorem Path.nodup : bs.Nodup := by
  induction h with
  | nil => exact List.nodup_nil
  | cons hp path ih =>
    refine List.nodup_cons.2 ⟨fun hb => ?_, ih⟩
    have := F.height_parent hp
    have := path.height_le hb
    omega

/-- Two paths that meet first at their end: the nodes of one are the ancestors that the other start
does not have. -/
theorem Path.mem_iff (h' : F.Path d cs c) (apart : ∀ x ∈ bs, x ∉ cs) :
    a ∈ bs ↔ F.Anc a b ∧ ¬ F.Anc a d := by
  rw [h.anc_iff, h'.anc_iff]
  constructor
  · intro ha
    refine ⟨.inl ha, ?_⟩
    rintro (hc | below)
    · exact apart a ha hc
    · exact absurd below.height_le (Nat.not_le_of_lt (h.height_lt ha))
  · rintro ⟨ha | below, out⟩
    · exact ha
    · exact absurd (.inr below) out

theorem Path.eq_of_height_eq (ha : a ∈ bs) (hd : d ∈ bs) (heq : F.height a = F.height d) : a = d :=
  (h.anc_iff.2 (.inl ha)).unique (h.anc_iff.2 (.inl hd)) heq

end

end Forest
