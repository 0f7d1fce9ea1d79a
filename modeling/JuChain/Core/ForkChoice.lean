import JuChain.Core.Writes
import JuChain.Lib.Runs
import Mathlib

/-!
# Fork choice by total difficulty

The head is a block of greatest total difficulty among all stored: a block is weighed against the
head when it is written.
-/

namespace JuChain

variable {coin : Bool}

/-- The recorded total difficulty of a block. -/
def BlockChain.tdOf (bc : BlockChain) (b : Block) : Option ℤ := bc.db.getTd b.hash b.number

variable {T : BlockTree} {bc bc' : BlockChain} {b p x : Block} {ptd td : ℤ}

/-- The recorded total difficulties add up along the tree, with the head's on top. -/
structure Weighed (T : BlockTree) (bc : BlockChain) : Prop where
  genesis : bc.tdOf T.genesis = some T.genesis.difficulty
  parent : ∀ {b p ptd}, T.forest.Parent b p → bc.db.Has b → bc.tdOf p = some ptd →
    bc.tdOf b = some (ptd + b.difficulty)
  le_head : ∀ {b td headTd}, bc.db.Has b → bc.tdOf b = some td →
    bc.tdOf bc.currentBlock = some headTd → td ≤ headTd

theorem Recorded.tdOf_of_has (weighed : Weighed T bc) (sound : Sound T bc)
    (recorded : Recorded T bc bc' b p ptd) (hx : bc.db.Has x) : bc'.tdOf x = bc.tdOf x := by
  by_cases hxb : x = b
  · subst hxb
    rw [weighed.parent recorded.parent hx recorded.ptd_eq, add_comm]
    exact recorded.getTd_self
  · exact recorded.getTd_of_ne (sound.mem hx) hxb

theorem le_of_not_takesOver {externTd localTd : ℤ} {number head : ℕ}
    (h : ¬ BlockChain.takesOver externTd localTd number head coin) : externTd ≤ localTd := by
  by_contra hlt
  exact h (.inl (by omega))

theorem le_of_takesOver {externTd localTd : ℤ} {number head : ℕ}
    (h : BlockChain.takesOver externTd localTd number head coin) : localTd ≤ externTd := by
  rcases h with h | h <;> omega

theorem Recorded.weighed (weighed : Weighed T bc) (sound : Sound T bc)
    (recorded : Recorded T bc bc' b p ptd) {headTd : ℤ}
    (head : bc'.tdOf bc'.currentBlock = some headTd) (hb : b.difficulty + ptd ≤ headTd)
    (hold : ∀ {td}, bc.tdOf bc.currentBlock = some td → td ≤ headTd) : Weighed T bc' := by
  constructor
  · rw [recorded.tdOf_of_has weighed sound sound.genesis]
    exact weighed.genesis
  · intro x q qtd hq hx hqtd
    rcases (recorded.has_iff sound).1 hx with hx | rfl
    · have hasq := sound.has_of_anc hx (.of_parent hq)
      rw [recorded.tdOf_of_has weighed sound hasq] at hqtd
      rw [recorded.tdOf_of_has weighed sound hx]
      exact weighed.parent hq hx hqtd
    · obtain rfl := T.forest.parent_unique hq recorded.parent
      rw [recorded.tdOf_of_has weighed sound recorded.has] at hqtd
      obtain rfl := Option.some.inj (recorded.ptd_eq.symm.trans hqtd)
      rw [add_comm]
      exact recorded.getTd_self
  · intro x td headTd' hx htd hhead
    obtain rfl := Option.some.inj (head.symm.trans hhead)
    rcases (recorded.has_iff sound).1 hx with hx | rfl
    · rw [recorded.tdOf_of_has weighed sound hx] at htd
      obtain ⟨localTd, hlocal⟩ := sound.exists_td sound.head
      have := weighed.le_head hx htd hlocal
      have := hold hlocal
      omega
    · obtain rfl := Option.some.inj (recorded.getTd_self.symm.trans htd)
      exact hb

theorem Weighed.step (weighed : Weighed T bc) (sound : Sound T bc)
    (wrote : Wrote T bc b coin bc') : Weighed T bc' := by
  cases wrote with
  | refused => exact weighed
  | side recorded local_eq stays head =>
    have hhead : bc'.tdOf bc'.currentBlock = bc.tdOf bc.currentBlock := by
      rw [head, recorded.tdOf_of_has weighed sound sound.head]
    apply recorded.weighed weighed sound (hhead.trans local_eq) (le_of_not_takesOver stays)
    intro td htd
    exact (Option.some.inj (htd.symm.trans local_eq)).le
  | adopted recorded local_eq wins change =>
    have hhead : bc'.tdOf bc'.currentBlock = bc'.tdOf b := by rw [change.head]
    apply recorded.weighed weighed sound (hhead.trans recorded.getTd_self) le_rfl
    intro td htd
    rw [Option.some.inj (htd.symm.trans local_eq)]
    exact le_of_takesOver wins

theorem Weighed.head_le (weighed : Weighed T bc) (sound : Sound T bc) (wrote : Wrote T bc b coin bc') :
    ∃ td td', bc.tdOf bc.currentBlock = some td ∧ bc'.tdOf bc'.currentBlock = some td' ∧
      td ≤ td' := by
  cases wrote with
  | refused =>
    obtain ⟨td, htd⟩ := sound.exists_td sound.head
    exact ⟨td, td, htd, htd, le_rfl⟩
  | side recorded local_eq stays head =>
    refine ⟨_, _, local_eq, ?_, le_rfl⟩
    rw [head, recorded.tdOf_of_has weighed sound sound.head]
    exact local_eq
  | adopted recorded local_eq wins change =>
    refine ⟨_, _, local_eq, ?_, le_of_takesOver wins⟩
    rw [change.head]
    exact recorded.getTd_self

theorem weighed_commit (T : BlockTree) : Weighed T (BlockChain.commit T.genesis) := by
  have td_eq : (BlockChain.commit T.genesis).tdOf T.genesis = some T.genesis.difficulty :=
    Index.put_self (fun _ => none) (T.genesis.number, T.genesis.hash) T.genesis.difficulty
  refine ⟨td_eq, ?_, ?_⟩
  · intro b p ptd hp hb
    exact absurd (getBlock_commit hb).1 (BlockTree.ne_genesis hp)
  · intro b td headTd hb htd hhead
    rw [(getBlock_commit hb).1] at htd
    exact (Option.some.inj (htd.symm.trans hhead)).le

theorem Weighed.sum (weighed : Weighed T bc) (sound : Sound T bc) (hb : bc.db.Has b) :
    ∃ bs, T.forest.Path b bs T.genesis ∧
      bc.tdOf b = some (T.genesis.difficulty + (bs.map Block.difficulty).sum) := by
  apply sound.induction _ _ hb
  · refine ⟨[], .nil _, ?_⟩
    rw [weighed.genesis]
    simp
  · rintro b p hp has ⟨bs, path, hsum⟩
    refine ⟨b :: bs, .cons hp path, ?_⟩
    rw [weighed.parent hp has hsum, List.map_cons, List.sum_cons]
    congr 1
    omega

/-! ## Along a run -/

/-- The recorded total difficulties are sums, and the head has the greatest. -/
structure HeaviestHead (T : BlockTree) (bc : BlockChain) : Prop where
  genesis : bc.tdOf T.genesis = some T.genesis.difficulty
  parent : ∀ b, bc.db.Has b → b ≠ T.genesis → ∃ p ptd, T.forest.Parent b p ∧ bc.db.Has p ∧
    bc.tdOf p = some ptd ∧ bc.tdOf b = some (ptd + b.difficulty)
  sum : ∀ b, bc.db.Has b → ∃ bs, T.forest.Path b bs T.genesis ∧
    bc.tdOf b = some (T.genesis.difficulty + (bs.map Block.difficulty).sum)
  max : ∃ headTd, bc.db.Has bc.currentBlock ∧ bc.tdOf bc.currentBlock = some headTd ∧
    ∀ b, bc.db.Has b → ∃ td, bc.tdOf b = some td ∧ td ≤ headTd

/-- What a call stores, and that the head gets no lighter. -/
structure Advances (bc : BlockChain) (b : Block) (bc' : BlockChain) : Prop where
  stores : ∀ x, bc'.db.Has x ↔ bc.db.Has x ∨ x = b ∧ bc.db.getParentTd b ≠ none
  head_le : ∃ td td', bc.tdOf bc.currentBlock = some td ∧
    bc'.tdOf bc'.currentBlock = some td' ∧ td ≤ td'

theorem Weighed.heaviestHead (weighed : Weighed T bc) (sound : Sound T bc) : HeaviestHead T bc := by
  refine ⟨weighed.genesis, ?_, fun b hb => weighed.sum sound hb, ?_⟩
  · intro b hb hne
    obtain ⟨p, hp, has⟩ := (sound.rooted hb).resolve_left hne
    obtain ⟨ptd, hptd⟩ := sound.exists_td has
    exact ⟨p, ptd, hp, has, hptd, weighed.parent hp hb hptd⟩
  · obtain ⟨headTd, hhead⟩ := sound.exists_td sound.head
    refine ⟨headTd, sound.head, hhead, ?_⟩
    intro b hb
    obtain ⟨td, htd⟩ := sound.exists_td hb
    exact ⟨td, htd, weighed.le_head hb htd hhead⟩

theorem Recorded.stores (sound : Sound T bc) (recorded : Recorded T bc bc' b p ptd) (x : Block) :
    bc'.db.Has x ↔ bc.db.Has x ∨ x = b ∧ bc.db.getParentTd b ≠ none := by
  rw [recorded.has_iff sound, recorded.parentTd]
  simp

theorem Weighed.advances (weighed : Weighed T bc) (sound : Sound T bc)
    (wrote : Wrote T bc b coin bc') : Advances bc b bc' := by
  refine ⟨?_, weighed.head_le sound wrote⟩
  cases wrote with
  | refused unknown => simp [unknown]
  | side recorded | adopted recorded => exact recorded.stores sound

/-- A call on a block with a stored parent returns: the header 128 numbers below, which garbage
collection looks up, is there.  It is when the block is at most 128 numbers above the head. -/
def WriteReturns (archive : Bool) (bc : BlockChain) (b : Block) : Prop :=
  bc.db.getParentTd b ≠ none → ¬ BlockChain.headerMissing archive bc.db b

theorem write_isSome_iff (sound : Sound T bc) {archive : Bool} {call : T.Call} :
    (T.write archive bc call).isSome ↔ WriteReturns archive bc call.block := by
  rw [Option.isSome_iff_ne_none, ne_eq, write_eq_none_iff sound, not_and]
  rfl

/-- All calls return exactly when none looks up a missing header.  As long as they do, total
difficulties are sums down to the genesis block, the head has the greatest one written so far, and
it never falls. -/
theorem head_heaviest (T : BlockTree) (archive : Bool) (calls : List T.Call) :
    ((Runs.run (T.write archive) (BlockChain.commit T.genesis) calls).isSome ↔
      Runs.Throughout (T.write archive) (fun bc call => WriteReturns archive bc call.block)
        (BlockChain.commit T.genesis) calls) ∧
    Runs.Always (T.write archive) (HeaviestHead T) (BlockChain.commit T.genesis) calls ∧
    Runs.Throughout (T.write archive)
      (fun bc call => ∀ bc', T.write archive bc call = some bc' → Advances bc call.block bc')
      (BlockChain.commit T.genesis) calls := by
  have keeps : ∀ bc call bc', Sound T bc ∧ Weighed T bc → T.write archive bc call = some bc' →
      Sound T bc' ∧ Weighed T bc' := by
    rintro bc call bc' ⟨sound, weighed⟩ h
    have wrote := write_cases sound h
    exact ⟨sound.step wrote, weighed.step sound wrote⟩
  have start := And.intro (sound_commit T) (weighed_commit T)
  refine ⟨?_, ?_, ?_⟩
  · apply Runs.run_isSome_iff_throughout keeps _ start
    rintro bc call ⟨sound, -⟩
    exact write_isSome_iff sound
  · apply Runs.always_of_invariant keeps _ start
    rintro bc ⟨sound, weighed⟩
    exact weighed.heaviestHead sound
  · apply Runs.throughout_of_invariant keeps _ start
    rintro bc call ⟨sound, weighed⟩ bc' h
    exact weighed.advances sound (write_cases sound h)

/-- A block with the given fields. -/
def Block.sample (hash parentHash : Hash) (number : ℕ) (difficulty : ℤ)
    (transactions : List Transaction) : Block where
  hash := hash
  header :=
    { parentHash, difficulty, number, time := 0, round := 1, presidentId := [] }
  transactions := transactions

/-- Blocks 0 to 130 are a chain of difficulty 2; block 131 is a child of block 0 that outweighs the
first 129. -/
def longBlock (n : Fin 132) : Block :=
  if n = 131 then .sample 131 0 1 259 [] else .sample n (n - 1 : ℕ) n 2 []

theorem longBlock_hash (n : Fin 132) : (longBlock n).hash = (n : ℕ) := by
  unfold longBlock
  split_ifs with h
  · rw [h]
    rfl
  · rfl

/-- The tree of the long chain. -/
def longTree : BlockTree where
  blocks := Set.range longBlock
  genesis := longBlock 0
  genesis_mem := ⟨0, rfl⟩
  genesis_number := rfl
  hash_inj := by
    rintro _ ⟨m, rfl⟩ _ ⟨n, rfl⟩ h
    rw [longBlock_hash, longBlock_hash] at h
    have := congrArg BitVec.toNat h
    simp only [BitVec.natCast_eq_ofNat, BitVec.toNat_ofNat] at this
    rw [show m = n by omega]

/-- Block `n` of it is written. -/
def longCall (n : Fin 132) : longTree.Call := ⟨longBlock n, ⟨n, rfl⟩, false⟩

/-- The heavy block, then the side chain up to its block 129. -/
def longCalls : List longTree.Call :=
  longCall 131 :: (List.range' 1 129).map fun n => longCall (Fin.ofNat 132 n)

/-- The head has number 1 and total difficulty 261.  The last block of the side chain has 262, and
the call that should make it the head looks up number 2, which nothing has. -/
theorem long_side_chain_panics :
    (Runs.run (longTree.write false) (BlockChain.commit longTree.genesis) longCalls).map
        (fun bc => (bc.currentBlock.number, bc.tdOf bc.currentBlock,
          bc.db.getParentTd (longBlock 130))) = some (1, some 261, some 260) ∧
      (longBlock 130).difficulty = 2 ∧
      Runs.run (longTree.write false) (BlockChain.commit longTree.genesis)
        (longCalls ++ [longCall 130]) = none := by
  refine ⟨by decide +kernel, rfl, ?_⟩
  rw [← Option.isNone_iff_eq_none]
  decide +kernel

end JuChain
