import JuChain.Core.ForkChoice

/-!
# The number-to-hash index

Up to the number of the head the index has the head's ancestors (`OnChain`).  Nothing deletes the
entries of the old branch above a lower new head (`canonical_consistent_iff`).
-/

namespace JuChain

variable {T : BlockTree} {bc bc' : BlockChain} {b c : Block} {archive coin : Bool}

/-- The numbers of the head and its ancestors lead to them. -/
def OnChain (T : BlockTree) (bc : BlockChain) : Prop :=
  ∀ a, T.forest.Anc a bc.currentBlock → bc.db.getCanonicalHash a.number = some a.hash

/-- The numbers up to the head lead to its ancestors, those above it to nothing. -/
structure Consistent (T : BlockTree) (bc : BlockChain) : Prop where
  below : ∀ n ≤ bc.currentBlock.number, ∃ a, T.forest.Anc a bc.currentBlock ∧ a.number = n ∧
    bc.db.getCanonicalHash n = some a.hash
  above : ∀ n, bc.currentBlock.number < n → bc.db.getCanonicalHash n = none

/-- A block below the head does not take over. -/
def KeepsHeight (bc : BlockChain) (b : Block) : Prop :=
  b.number < bc.currentBlock.number → ∀ ptd localTd, bc.db.getParentTd b = some ptd →
    bc.tdOf bc.currentBlock = some localTd → b.difficulty + ptd < localTd

theorem onChain_commit (T : BlockTree) : OnChain T (BlockChain.commit T.genesis) := by
  intro a ha
  have hzero := T.genesis_number
  have heq : a = T.genesis := ha.eq_of_height_le (show T.genesis.number ≤ a.number by omega)
  rw [heq]
  exact Index.put_self (fun _ => none) T.genesis.number T.genesis.hash

theorem OnChain.adopted (onChain : OnChain T bc) {os ns : List Block}
    (change : Adopted T bc bc' b os ns c) : OnChain T bc' := by
  intro a ha
  rw [change.head] at ha
  by_cases hab : a = b
  · exact change.canonical_new (.inr hab)
  rcases change.new.anc_iff.1 ha with hns | hac
  · exact change.canonical_new (.inl hns)
  · unfold Database.getCanonicalHash
    rw [change.canonical_kept]
    · exact onChain a (change.old.anc_iff.2 (.inr hac))
    · rintro x (hx | rfl) heq
      · have hlt : c.number < x.number := change.new.height_lt hx
        have hle : a.number ≤ c.number := hac.height_le
        omega
      · exact hab (ha.eq_of_height_le heq.le)

theorem OnChain.step (onChain : OnChain T bc) (wrote : Wrote T bc b coin bc') : OnChain T bc' := by
  cases wrote with
  | refused => exact onChain
  | side _ _ _ head canonical =>
    intro a ha
    unfold Database.getCanonicalHash
    rw [canonical]
    rw [head] at ha
    exact onChain a ha
  | adopted _ _ _ change => exact onChain.adopted change

theorem OnChain.below (onChain : OnChain T bc) (sound : Sound T bc) {n : ℕ}
    (hn : n ≤ bc.currentBlock.number) : ∃ a, T.forest.Anc a bc.currentBlock ∧ a.number = n ∧
      bc.db.getCanonicalHash n = some a.hash := by
  have hg : T.genesis.number ≤ n := by
    rw [T.genesis_number]
    omega
  obtain ⟨a, ha, rfl⟩ := (sound.genesis_anc sound.head).exists_height hg hn
  exact ⟨a, ha, rfl, onChain a ha⟩

theorem consistent_commit (T : BlockTree) : Consistent T (BlockChain.commit T.genesis) := by
  refine ⟨fun n hn => (onChain_commit T).below (sound_commit T) hn, ?_⟩
  intro n hn
  show Index.put (fun _ => none) (T.genesis.number, T.genesis.hash) n = none
  rw [Index.put_apply, if_neg]
  exact ne_of_gt hn

/-! ## Which calls keep the index consistent -/

theorem Consistent.adopted_iff (consistent : Consistent T bc) (onChain : OnChain T bc)
    (sound : Sound T bc') {os ns : List Block} (change : Adopted T bc bc' b os ns c) :
    Consistent T bc' ↔ bc.currentBlock.number ≤ b.number := by
  have new_le : ∀ x, x ∈ ns ∨ x = b → x.number ≤ b.number := by
    rintro x (hx | rfl)
    · exact (change.new.anc_iff.2 (.inl hx)).height_le
    · exact le_rfl
  constructor
  · intro consistent'
    by_contra hlt
    have stale : bc'.db.canonical bc.currentBlock.number = some bc.currentBlock.hash := by
      rw [change.canonical_kept]
      · exact onChain bc.currentBlock (.refl _)
      · intro x hx heq
        have := new_le x hx
        omega
    have gone := consistent'.above bc.currentBlock.number (by rw [change.head]; omega)
    unfold Database.getCanonicalHash at gone
    simp [stale] at gone
  · intro hle
    refine ⟨fun n hn => (onChain.adopted change).below sound hn, ?_⟩
    intro n hn
    rw [change.head] at hn
    unfold Database.getCanonicalHash
    rw [change.canonical_kept]
    · exact consistent.above n (by omega)
    · intro x hx heq
      have := new_le x hx
      omega

theorem Consistent.step_iff (consistent : Consistent T bc) (onChain : OnChain T bc)
    (sound : Sound T bc) (wrote : Wrote T bc b coin bc') : Consistent T bc' ↔ KeepsHeight bc b := by
  have sound' := sound.step wrote
  cases wrote with
  | refused unknown =>
    apply iff_of_true consistent
    intro _ ptd _ hptd
    simp [unknown] at hptd
  | side recorded local_eq stays head canonical =>
    apply iff_of_true
    · refine ⟨fun n hn => ?_, fun n hn => ?_⟩
      · rw [head] at hn ⊢
        unfold Database.getCanonicalHash
        rw [canonical]
        exact consistent.below n hn
      · rw [head] at hn
        unfold Database.getCanonicalHash
        rw [canonical]
        exact consistent.above n hn
    · intro hlt ptd localTd hptd hlocal
      obtain rfl := Option.some.inj (recorded.parentTd.symm.trans hptd)
      obtain rfl := Option.some.inj (local_eq.symm.trans hlocal)
      -- otherwise it would be the head: by difficulty, or by its number
      by_contra hge
      apply stays
      rcases lt_or_eq_of_le (not_lt.1 hge) with h | h
      · exact .inl h
      · exact .inr ⟨h.symm, .inl hlt⟩
  | adopted recorded local_eq wins change =>
    rw [consistent.adopted_iff onChain sound' change]
    constructor
    · intro hle hlt
      omega
    · intro keeps
      by_contra hlt
      have := keeps (by omega) _ _ recorded.parentTd local_eq
      have := le_of_takesOver wins
      omega

theorem keepsHeight_of_panic (onChain : OnChain T bc) (sound : Sound T bc) {call : T.Call}
    (h : T.write archive bc call = none) : KeepsHeight bc call.block := by
  obtain ⟨-, -, -, missing⟩ := (write_eq_none_iff sound).1 h
  intro hlt
  obtain ⟨a, ha, hnum, hcanon⟩ := onChain.below sound
    (show call.block.number - triesInMemory ≤ bc.currentBlock.number by omega)
  have has := sound.has_of_anc sound.head ha
  unfold Database.Has at has
  rw [hnum] at has
  simp [Database.getHeaderByNumber, hcanon, has] at missing

/-- The index is that of the head's chain after each call exactly when no call is on a block that is
lower than the head and at least as heavy. -/
theorem canonical_consistent_iff (T : BlockTree) (archive : Bool) (calls : List T.Call) :
    Runs.Always (T.write archive) (Consistent T) (BlockChain.commit T.genesis) calls ↔
      Runs.Throughout (T.write archive) (fun bc call => KeepsHeight bc call.block)
        (BlockChain.commit T.genesis) calls := by
  have keeps : ∀ bc call bc', Sound T bc ∧ OnChain T bc → T.write archive bc call = some bc' →
      Sound T bc' ∧ OnChain T bc' := by
    rintro bc call bc' ⟨sound, onChain⟩ h
    have wrote := write_cases sound h
    exact ⟨sound.step wrote, onChain.step wrote⟩
  refine Runs.always_iff_throughout keeps ?_ ?_ ⟨sound_commit T, onChain_commit T⟩
    (consistent_commit T) calls
  · rintro bc call bc' ⟨sound, onChain⟩ consistent h
    exact consistent.step_iff onChain sound (write_cases sound h)
  · rintro bc call ⟨sound, onChain⟩ h
    exact keepsHeight_of_panic onChain sound h

/-- Two blocks, and a heavier one beside the first. -/
def forkBlocks : List Block :=
  [.sample 1 0 0 1 [], .sample 2 1 1 1 [], .sample 3 2 2 1 [], .sample 4 1 1 5 []]

/-- The tree of these blocks. -/
def forkTree : BlockTree where
  blocks := { b | b ∈ forkBlocks }
  genesis := .sample 1 0 0 1 []
  genesis_mem := show _ ∈ forkBlocks by decide
  genesis_number := rfl
  hash_inj := show ∀ a ∈ forkBlocks, ∀ b ∈ forkBlocks, a.hash = b.hash → a = b by decide

/-- They are written in this order. -/
def forkCalls : List forkTree.Call :=
  [⟨.sample 2 1 1 1 [], show _ ∈ forkBlocks by decide, false⟩,
    ⟨.sample 3 2 2 1 [], show _ ∈ forkBlocks by decide, false⟩,
    ⟨.sample 4 1 1 5 [], show _ ∈ forkBlocks by decide, false⟩]

/-- The heavier block becomes the head at number 1, and number 2 still has the other branch. -/
theorem stale_entry_above_head :
    ∃ bc, Runs.run (forkTree.write false) (BlockChain.commit forkTree.genesis) forkCalls = some bc ∧
      bc.currentBlock = .sample 4 1 1 5 [] ∧ bc.db.getCanonicalHash 2 = some 3 ∧
      ¬ Consistent forkTree bc := by
  refine ⟨_, rfl, rfl, rfl, ?_⟩
  intro consistent
  have gone := consistent.above 2 (by decide)
  exact absurd gone (by decide)

end JuChain
