import JuChain.Lib.Forest
import JuChain.Pool.Reset

/-!
# Transactions that a reorganisation brings back

The first part of `TxPool.reset`.  The database may no longer have the block of the old head.  Where
both walks can start they meet, and the pool is offered the transactions of the blocks that the
chain has left, without those of the blocks it has joined.
-/

namespace JuChain.Pool

open List

/-! ## Branches -/

namespace Chain

variable {chain : Chain} {b c : Block}

/-- The chain has the block. -/
def Stored (chain : Chain) (b : Block) : Prop := chain.getBlock b.hash b.number = some b

theorem Stored.of_getBlock {h : Hash} {n : ℕ} (found : chain.getBlock h n = some b) :
    chain.Stored b := by
  obtain ⟨rfl, rfl⟩ := chain.filed found
  exact found

theorem getBlock_of_parent (h : chain.parent b = some c) :
    chain.getBlock b.parentHash c.number = some c ∧ b.number = c.number + 1 := by
  unfold parent at h
  cases hn : b.number with
  | zero => simp [hn] at h
  | succ n =>
    rw [hn] at h
    obtain ⟨-, rfl⟩ := chain.filed h
    exact ⟨h, rfl⟩

/-- The blocks of the chain with their parents. -/
def forest (chain : Chain) : Forest Block where
  Parent b p := chain.parent b = some p
  height := Block.number
  parent_unique h h' := Option.some.inj (h.symm.trans h')
  height_parent h := (getBlock_of_parent h).2

/-- A database holds the parent of every block down to one genesis block, and hashes cover numbers.
-/
structure Rooted (chain : Chain) : Prop where
  genesis : ∀ {b c}, chain.Stored b → chain.Stored c → b.number = 0 → c.number = 0 → b = c
  parent : ∀ {b}, chain.Stored b → 0 < b.number → ∃ p, chain.parent b = some p
  numbered : ∀ {b c}, chain.Stored b → chain.Stored c → c.hash = b.parentHash → b.number = c.number + 1

/-- The blocks of the branch of a head, none if the head is not stored. -/
def Branch (chain : Chain) (head b : Block) : Prop :=
  ∃ top, chain.getBlock head.hash head.number = some top ∧ chain.forest.Anc b top

theorem branch_iff {top head : Block} (h : chain.getBlock head.hash head.number = some top) :
    chain.Branch head b ↔ chain.forest.Anc b top := by
  simp [Branch, h]

end Chain

namespace HeadChange

variable {chain : Chain} (rooted : chain.Rooted)

include rooted

theorem descend_eq {n fuel : ℕ} {b : Block} (stored : chain.Stored b) (enough : b.number ≤ n + fuel)
    (txs : List Transaction) :
    ∃ c bs, chain.Stored c ∧ c.number = min n b.number ∧ chain.forest.Path b bs c ∧
      descend chain n fuel b txs = some (c, txs ++ bs.flatMap (·.transactions)) := by
  induction fuel generalizing b txs with
  | zero => exact ⟨b, [], stored, by omega, .nil b, by simp [descend]⟩
  | succ fuel ih =>
    unfold descend
    split_ifs with above
    · obtain ⟨p, hp⟩ := rooted.parent stored (by omega)
      obtain ⟨found, number⟩ := Chain.getBlock_of_parent hp
      obtain ⟨c, bs, hc, hn, path, heq⟩ := ih (.of_getBlock found) (by omega) (txs ++ b.transactions)
      refine ⟨c, b :: bs, hc, by omega, .cons hp path, ?_⟩
      simp [hp, heq]
    · exact ⟨b, [], stored, by omega, .nil b, by simp⟩

theorem meet_eq {fuel : ℕ} {rem add : Block} (hrem : chain.Stored rem) (hadd : chain.Stored add)
    (level : rem.number = add.number) (enough : rem.number < fuel) (ds is : List Transaction) :
    ∃ c bs cs, chain.forest.Path rem bs c ∧ chain.forest.Path add cs c ∧ (∀ b ∈ bs, b ∉ cs) ∧
      meet chain fuel rem add ds is =
        some (ds ++ bs.flatMap (·.transactions), is ++ cs.flatMap (·.transactions)) := by
  induction fuel generalizing rem add ds is with
  | zero => omega
  | succ fuel ih =>
    unfold meet
    split_ifs with same
    · have heq : rem = add := by
        unfold Chain.Stored at hrem
        rw [same, level, hadd] at hrem
        exact (Option.some.inj hrem).symm
      subst heq
      exact ⟨rem, [], [], .nil rem, .nil rem, by simp, by simp⟩
    · have apart : rem ≠ add := fun h => same (congrArg Block.hash h)
      have pos : 0 < rem.number := by
        by_contra zero
        exact apart (rooted.genesis hrem hadd (by omega) (by omega))
      obtain ⟨r, hr⟩ := rooted.parent hrem pos
      obtain ⟨a, ha⟩ := rooted.parent hadd (by omega)
      obtain ⟨found, number⟩ := Chain.getBlock_of_parent hr
      obtain ⟨found', number'⟩ := Chain.getBlock_of_parent ha
      obtain ⟨c, bs, cs, path, path', disjoint, heq⟩ := ih (.of_getBlock found) (.of_getBlock found')
        (by omega) (by omega) (ds ++ rem.transactions) (is ++ add.transactions)
      refine ⟨c, rem :: bs, add :: cs, .cons hr path, .cons ha path', ?_, by simp [hr, ha, heq]⟩
      -- the other blocks of both walks are below `rem` and `add`
      have low (b : Block) (hb : b ∈ bs) : b.number ≤ r.number := path.height_le hb
      have low' (b : Block) (hb : b ∈ cs) : b.number ≤ a.number := path'.height_le hb
      intro b hb hb'
      rcases mem_cons.1 hb with rfl | hb <;> rcases mem_cons.1 hb' with rfl | hb'
      · exact apart rfl
      · have := low' b hb'
        omega
      · have := low b hb
        omega
      · exact disjoint b hb hb'

theorem branches_eq {old new : Block} (hold : chain.Stored old) (hnew : chain.Stored new) :
    ∃ c bs cs, chain.forest.Path old bs c ∧ chain.forest.Path new cs c ∧ (∀ b ∈ bs, b ∉ cs) ∧
      branches chain old new =
        some (txDifference (bs.flatMap (·.transactions)) (cs.flatMap (·.transactions))) := by
  obtain ⟨r, bs, hr, hrn, path, heq⟩ := descend_eq rooted hold (Nat.le_add_left _ new.number) []
  obtain ⟨a, cs, ha, han, path', heq'⟩ := descend_eq rooted hnew (Nat.le_add_left _ old.number) []
  obtain ⟨c, bs', cs', onward, onward', disjoint, hmeet⟩ := meet_eq rooted hr ha (by omega)
    (Nat.lt_succ_self r.number) (bs.flatMap (·.transactions)) (cs.flatMap (·.transactions))
  refine ⟨c, bs ++ bs', cs ++ cs', path.append onward, path'.append onward', ?_, ?_⟩
  · intro b hb hb'
    rcases mem_append.1 hb with hb | hb <;> rcases mem_append.1 hb' with hb' | hb'
    · have := path.height_le hb
      have := path'.height_le hb'
      have := path'.height_lt hb'
      simp only [Chain.forest] at *
      omega
    · have := path.height_lt hb
      have := onward'.height_le hb'
      simp only [Chain.forest] at *
      omega
    · have := onward.height_le hb
      have := path'.height_lt hb'
      simp only [Chain.forest] at *
      omega
    · exact disjoint b hb hb'
  · simp [branches, heq, heq', hmeet]

end HeadChange

/-! ## What is offered -/

section Exact

variable {chain : Chain} {oldHead : Option Block} {newHead : Block}

/-- The blocks of the old branch above the common ancestor. -/
def Left (chain : Chain) (oldHead : Option Block) (newHead b : Block) : Prop :=
  (∃ old ∈ oldHead, chain.Branch old b) ∧ ¬ chain.Branch newHead b

/-- The transaction is in a block of the new branch above the common ancestor. -/
def Joined (chain : Chain) (oldHead : Option Block) (newHead : Block) (tx : Transaction) : Prop :=
  ∃ b, (chain.Branch newHead b ∧ ¬ ∃ old ∈ oldHead, chain.Branch old b) ∧
    tx.hash ∈ b.transactions.map (·.hash)

open Classical in
/-- The pool is offered the transactions of the blocks that were left, once, except those in the new
branch. -/
def Exact (chain : Chain) (oldHead : Option Block) (newHead : Block) : Prop :=
  ∃ left : List Block, left.Nodup ∧ (∀ b, b ∈ left ↔ Left chain oldHead newHead b) ∧
    reinjection chain oldHead newHead = .offers
      ((left.flatMap (·.transactions)).filter fun tx => ¬ Joined chain oldHead newHead tx)

theorem exact_of_nothing_left (none_left : ∀ b, ¬ Left chain oldHead newHead b)
    (h : reinjection chain oldHead newHead = .offers []) : Exact chain oldHead newHead :=
  ⟨[], nodup_nil, fun b => by simp [none_left b], h⟩

theorem exact_of_parent (rooted : chain.Rooted) {old : Block} (stored : chain.Stored newHead)
    (child : old.hash = newHead.parentHash) : Exact chain (some old) newHead := by
  refine exact_of_nothing_left ?_ (if_pos child)
  rintro b ⟨⟨_, ⟨⟩, top, found, below⟩, out⟩
  obtain ⟨hash, number⟩ := chain.filed found
  have step : newHead.number = top.number + 1 :=
    rooted.numbered stored (.of_getBlock found) (hash.trans child)
  have parent : chain.parent newHead = some top := by
    unfold Chain.parent
    rw [step, ← child]
    rwa [← number] at found
  exact out ⟨newHead, stored, below.trans (.of_parent parent)⟩

theorem exact_of_stored (rooted : chain.Rooted) {old rem : Block} (stored : chain.Stored newHead)
    (found : chain.getBlock old.hash old.number = some rem) (apart : old.hash ≠ newHead.parentHash)
    (near : ¬ 64 < ((old.number : ℤ) - newHead.number).natAbs) : Exact chain (some old) newHead := by
  obtain ⟨c, bs, cs, path, path', disjoint, heq⟩ :=
    HeadChange.branches_eq rooted (.of_getBlock found) stored
  have branch (b : Block) : (∃ o ∈ some old, chain.Branch o b) ↔ chain.forest.Anc b rem := by
    simp [Chain.branch_iff found]
  have left (b : Block) : b ∈ bs ↔ Left chain (some old) newHead b := by
    rw [path.mem_iff path' disjoint, Left, branch, Chain.branch_iff stored]
  have joined (tx : Transaction) :
      tx.hash ∈ (cs.flatMap (·.transactions)).map (·.hash) ↔ Joined chain (some old) newHead tx := by
    have mem (b : Block) : b ∈ cs ↔ chain.forest.Anc b newHead ∧ ¬ chain.forest.Anc b rem :=
      path'.mem_iff path fun b hb hb' => disjoint b hb' hb
    simp only [Joined, map_flatMap, mem_flatMap, mem, branch, Chain.branch_iff stored]
  refine ⟨bs, path.nodup, left, ?_⟩
  have offered : reinjection chain (some old) newHead =
      .offers
        (HeadChange.txDifference (bs.flatMap (·.transactions)) (cs.flatMap (·.transactions))) := by
    simp [reinjection, apart, near, found, show chain.getBlock _ _ = _ from stored, heq]
  rw [offered, HeadChange.txDifference]
  congr 1
  exact filter_congr fun tx _ => decide_eq_decide.2 (not_congr (joined tx))

/-- The walk is exact, unless it starts from an old head that is not stored. -/
theorem reinjection_exact_iff (rooted : chain.Rooted) (stored : chain.Stored newHead)
    (near : ∀ old ∈ oldHead, ((old.number : ℤ) - newHead.number).natAbs ≤ 64) :
    Exact chain oldHead newHead ↔ ∀ old ∈ oldHead, old.hash ≠ newHead.parentHash →
        (chain.getBlock old.hash old.number).isSome := by
  cases oldHead with
  | none =>
    refine iff_of_true (exact_of_nothing_left ?_ rfl) (by simp)
    rintro b ⟨⟨_, ⟨⟩, -⟩, -⟩
  | some old =>
    have near : ¬ 64 < ((old.number : ℤ) - newHead.number).natAbs := Nat.not_lt_of_le (near old rfl)
    by_cases child : old.hash = newHead.parentHash
    · exact iff_of_true (exact_of_parent rooted stored child) (by simp [child])
    · cases found : chain.getBlock old.hash old.number with
      | none =>
        refine iff_of_false ?_ (by simp [child, found])
        rintro ⟨left, -, -, offered⟩
        simp [reinjection, child, near, found] at offered
      | some rem => exact iff_of_true (exact_of_stored rooted stored found child near) (by simp [found])

/-- A block beside the head. -/
def sampleBranch (hash : Hash) (txs : List Transaction) : Block :=
  { sampleHead txs with hash := hash }

/-- A genesis block with two children. -/
def sampleTree : Chain :=
  sampleChain [{ sampleHead [] with hash := 99, parentHash := 0, number := 0 },
    sampleBranch 100 [sampleTx 1 1 0 10, sampleTx 2 2 0 10], sampleBranch 101 [sampleTx 2 2 0 10]]
    fun _ => none

theorem sampleTree_rooted : sampleTree.Rooted := by
  have listed {b : Block} (h : sampleTree.Stored b) := mem_of_find?_eq_some h
  simp only [mem_cons, not_mem_nil, or_false] at listed
  constructor
  · intro b c hb hc _ _
    rcases listed hb with rfl | rfl | rfl <;> rcases listed hc with rfl | rfl | rfl <;> trivial
  · intro b hb _
    rcases listed hb with rfl | rfl | rfl <;> first | trivial | exact ⟨_, rfl⟩
  · intro b c hb hc
    rcases listed hb with rfl | rfl | rfl <;> rcases listed hc with rfl | rfl | rfl <;> decide

theorem reinjection_exact_sample :
    Exact sampleTree (some (sampleBranch 100 [])) (sampleBranch 101 [sampleTx 2 2 0 10]) := by
  refine (reinjection_exact_iff sampleTree_rooted ?_ ?_).2 ?_
  · rfl
  · rintro _ ⟨⟩
    decide
  · rintro _ ⟨⟩ _
    rfl

/-- After `SetHead` the old head's block is gone, and its number is read all the same. -/
theorem reinjection_lost_head :
    reinjection sampleTree (some { sampleBranch 102 [] with number := 2, parentHash := 100 })
      (sampleBranch 101 [sampleTx 2 2 0 10]) = .panics := rfl

end Exact

end JuChain.Pool
