import JuChain.Core.Rewind
import JuChain.Lib.Forest

/-!
# Common ancestors

`FindCommonAncestor` of `core/database_util.go`.  The loops follow the parents down to one number
and from there to one header.  They end, and with a header only if it is the last common one
(`findCommonAncestor_eq`).
-/

namespace JuChain

open Option ChainState

namespace Records

variable (db : Records)

/-- `GetHeader(db, x.ParentHash, x.Number.Uint64()-1)` -/
def parent (x : Stored) : Option Stored := db.getHeader x.parentHash (x.numberU64 - 1)

/-- The loop down to the number `n`.  The outer `none` is a lack of fuel, the inner one a missing
header. -/
def descend (n : UInt64) : ℕ → Stored → Option (Option Stored)
  | 0, _ => none
  | fuel + 1, x =>
    if n < x.numberU64 then (db.parent x).elim (some none) (descend n fuel) else some (some x)

/-- The loop that takes both headers down until their hashes are the same. -/
def meet : ℕ → Stored → Stored → Option (Option Stored)
  | 0, _, _ => none
  | fuel + 1, a, b =>
    if a.hash = b.hash then some (some a)
    else (db.parent a).elim (some none) fun a => (db.parent b).elim (some none) (meet fuel a)

def findCommonAncestor (fuel : ℕ) (a b : Stored) : Option (Option Stored) :=
  (db.descend b.numberU64 fuel a).bind fun a => a.elim (some none) fun a =>
    (db.descend a.numberU64 fuel b).bind fun b => b.elim (some none) (db.meet fuel a)

/-- The header is stored. -/
def Has (x : Stored) : Prop := db.getHeader x.hash x.numberU64 = some x

/-- A header of number zero has no parent, which would be at the last number of 64 bits. -/
def Grounded : Prop := ∀ x, db.Has x → x.number = 0 → db.parent x = none

/-- Headers and their parents on record. -/
def forest : Forest Stored where
  Parent b p := db.parent b = some p ∧ b.number = p.number + 1
  height := Stored.number
  parent_unique h h' := some.inj (h.1.symm.trans h'.1)
  height_parent h := h.2

/-- A header above zero whose parent is not on record is `x` or one of its ancestors. -/
def Broken (x : Stored) : Prop := ∃ y, db.forest.Anc y x ∧ y.number ≠ 0 ∧ db.parent y = none

/-- The last common ancestor, or nothing: there is none, or one of the chains is broken. -/
def LastCommon (a b : Stored) : Option Stored → Prop
  | some c => db.forest.Anc c a ∧ db.forest.Anc c b ∧
    ∀ d, db.forest.Anc d a → db.forest.Anc d b → d.number ≤ c.number
  | none => (∀ c, db.forest.Anc c a → ¬ db.forest.Anc c b) ∨ db.Broken a ∨ db.Broken b

end Records

variable {db : Records} {a b x p : Stored}

theorem Records.Has.eq (ha : db.Has a) (hb : db.Has b) (hash : a.hash = b.hash)
    (number : a.number = b.number) : a = b := by
  rw [Records.Has, hash, Stored.numberU64, number] at ha
  exact some.inj (ha.symm.trans hb)

theorem Records.Broken.mono (anc : db.forest.Anc a x) (broken : db.Broken a) : db.Broken x := by
  obtain ⟨y, below, rest⟩ := broken
  exact ⟨y, below.trans anc, rest⟩

theorem Records.LastCommon.lift {a' b' : Stored} {r : Option Stored} (last : db.LastCommon a' b' r)
    (ha : db.forest.Anc a' a) (hb : db.forest.Anc b' b)
    (lower : ∀ c, db.forest.Anc c a → db.forest.Anc c b → db.forest.Anc c a' ∧ db.forest.Anc c b') :
    db.LastCommon a b r := by
  cases r with
  | none =>
    refine last.imp (fun none c ca cb => ?_) (.imp (.mono ha) (.mono hb))
    exact none c (lower c ca cb).1 (lower c ca cb).2
  | some c =>
    obtain ⟨above, above', most⟩ := last
    exact ⟨above.trans ha, above'.trans hb, fun d da db => most d (lower d da db).1 (lower d da db).2⟩

namespace Records.Filed

variable (filed : db.Filed)
include filed

theorem toNat_numberU64 (has : db.Has x) : x.numberU64.toNat = x.number := (filed.filed has).2.1.symm

theorem parent_of_some (grounded : db.Grounded) (has : db.Has x) (found : db.parent x = some p) :
    db.forest.Parent x p ∧ db.Has p := by
  obtain ⟨hash, number, -⟩ := filed.filed found
  have pos : x.numberU64 ≠ 0 := by
    intro zero
    have first : x.number = 0 := by rw [← filed.toNat_numberU64 has, zero]; rfl
    cases (grounded x has first).symm.trans found
  have next := toNat_pred pos
  rw [filed.toNat_numberU64 has, ← number] at next
  refine ⟨⟨found, next.symm⟩, ?_⟩
  rw [Records.Has, hash, filed.numberU64_eq found]
  exact found

theorem descend_eq (grounded : db.Grounded) (has : db.Has x) (n : UInt64) {fuel : ℕ}
    (enough : x.number < fuel) : (db.descend n fuel x = some none ∧ db.Broken x) ∨
      ∃ y, db.descend n fuel x = some (some y) ∧ db.forest.Anc y x ∧ db.Has y ∧
        y.number = min n.toNat x.number := by
  induction fuel generalizing x with
  | zero => omega
  | succ fuel ih =>
    have number := filed.toNat_numberU64 has
    rw [Records.descend]
    split_ifs with above
    · rw [UInt64.lt_iff_toNat_lt, number] at above
      cases found : db.parent x with
      | none => exact .inl ⟨rfl, x, .refl x, by omega, found⟩
      | some p =>
        obtain ⟨link, has'⟩ := filed.parent_of_some grounded has found
        have lower : x.number = p.number + 1 := link.2
        rcases ih has' (by omega) with ⟨run, broken⟩ | ⟨y, run, anc, hy, least⟩
        · exact .inl ⟨run, broken.mono (.of_parent link)⟩
        · exact .inr ⟨y, run, anc.trans (.of_parent link), hy, by omega⟩
    · rw [UInt64.lt_iff_toNat_lt, number] at above
      exact .inr ⟨x, rfl, .refl x, has, by omega⟩

theorem meet_eq (grounded : db.Grounded) (ha : db.Has a) (hb : db.Has b)
    (level : a.number = b.number) {fuel : ℕ}
    (enough : a.number < fuel) : ∃ r, db.meet fuel a b = some r ∧ db.LastCommon a b r := by
  induction fuel generalizing a b with
  | zero => omega
  | succ fuel ih =>
    rw [Records.meet]
    split_ifs with hash
    · obtain rfl := ha.eq hb hash level
      exact ⟨_, rfl, .refl a, .refl a, fun d anc _ => anc.height_le⟩
    -- A common ancestor is neither `a` nor `b`.
    have apart {c : Stored} (ca : db.forest.Anc c a) (cb : db.forest.Anc c b) : c ≠ a ∧ c ≠ b := by
      constructor
      · rintro rfl
        exact hash (congrArg Stored.hash (cb.eq_of_height_le level.ge))
      · rintro rfl
        exact hash (congrArg Stored.hash (ca.eq_of_height_le level.le).symm)
    cases fa : db.parent a with
    | none =>
      refine ⟨none, rfl, ?_⟩
      by_cases zero : a.number = 0
      · exact .inl fun c ca cb => (apart ca cb).1 (ca.eq_of_height_le (zero.trans_le (Nat.zero_le _)))
      · exact .inr (.inl ⟨a, .refl a, zero, fa⟩)
    | some p =>
      obtain ⟨linkA, hp⟩ := filed.parent_of_some grounded ha fa
      cases fb : db.parent b with
      | none =>
        refine ⟨none, rfl, .inr (.inr ⟨b, .refl b, ?_, fb⟩)⟩
        have := linkA.2
        omega
      | some q =>
        obtain ⟨linkB, hq⟩ := filed.parent_of_some grounded hb fb
        have := linkA.2
        have := linkB.2
        obtain ⟨r, run, last⟩ := ih hp hq (by omega) (by omega)
        refine ⟨r, run, last.lift (.of_parent linkA) (.of_parent linkB) fun c ca cb => ?_⟩
        exact ⟨((Forest.anc_iff_of_parent linkA).1 ca).resolve_left (apart ca cb).1,
          ((Forest.anc_iff_of_parent linkB).1 cb).resolve_left (apart ca cb).2⟩

end Records.Filed

/-- The search ends, with the last common ancestor or with nothing; with all headers there, with
nothing only if there is no common ancestor. -/
theorem findCommonAncestor_eq (filed : db.Filed) (grounded : db.Grounded) (ha : db.Has a)
    (hb : db.Has b) {fuel : ℕ} (enough : a.number < fuel ∧ b.number < fuel) :
    ∃ r, db.findCommonAncestor fuel a b = some r ∧ db.LastCommon a b r := by
  unfold Records.findCommonAncestor
  rcases filed.descend_eq grounded ha b.numberU64
    enough.1 with ⟨run, broken⟩ | ⟨a', run, anc, ha', level⟩
  · exact ⟨none, by rw [run]; rfl, .inr (.inl broken)⟩
  rw [filed.toNat_numberU64 hb] at level
  rw [run]
  rcases filed.descend_eq grounded hb a'.numberU64
    enough.2 with ⟨run', broken⟩ | ⟨b', run', anc', hb', level'⟩
  · exact ⟨none, by rw [bind_some, elim_some, run']; rfl, .inr (.inr broken)⟩
  rw [filed.toNat_numberU64 ha'] at level'
  obtain ⟨r, met, last⟩ := filed.meet_eq grounded ha' hb' (by omega) (show a'.number < fuel by omega)
  refine ⟨r, by rw [bind_some, elim_some, run']; exact met, last.lift anc anc' fun c ca cb => ?_⟩
  -- A common ancestor is not above the lower of the two headers.
  have low : c.number ≤ a.number := ca.height_le
  have low' : c.number ≤ b.number := cb.height_le
  exact ⟨ca.of_height_le anc (show c.number ≤ a'.number by omega),
    cb.of_height_le anc' (show c.number ≤ b'.number by omega)⟩

/-- The third block and the second of a chain of three. -/
theorem findCommonAncestor_second :
    (lineRecords threeBlocks 3).LastCommon ⟨3, 2, 2, 0, 0⟩ ⟨2, 1, 1, 0, 0⟩ (some ⟨2, 1, 1, 0, 0⟩) := by
  have first : ∀ x ∈ threeBlocks, x.number = 0 → (lineRecords threeBlocks 3).parent x = none := by
    decide
  have grounded : (lineRecords threeBlocks 3).Grounded := by
    intro x has
    have found : threeBlocks.find? (fun y => (y.numberU64, y.hash) = (x.numberU64, x.hash)) =
      some x := has
    exact first x (List.mem_of_find?_eq_some found)
  have search : (lineRecords threeBlocks 3).findCommonAncestor 3 ⟨3, 2, 2, 0, 0⟩ ⟨2, 1, 1, 0, 0⟩ =
      some (some ⟨2, 1, 1, 0, 0⟩) := by decide
  obtain ⟨r, run, last⟩ := findCommonAncestor_eq (a := ⟨3, 2, 2, 0, 0⟩) (b := ⟨2, 1, 1, 0, 0⟩)
    (filed_threeBlocks 3) grounded rfl rfl (show 2 < 3 ∧ 1 < 3 by decide)
  rw [search] at run
  cases run
  exact last

end JuChain
