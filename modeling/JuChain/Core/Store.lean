import JuChain.Core.BlockChain
import JuChain.Lib.Forest
import Mathlib.Data.Set.Defs
import Mathlib.Order.Nat
import Mathlib.Tactic.SplitIfs

/-!
# The block store over a tree of blocks

A `BlockTree` is the collection of blocks a node may ever be given, in which the hash identifies the
block.  The database files them with their total difficulty and together with their ancestors
(`Sound`), so the walks of `reorg` find the common block (`branches_spec`).
-/

namespace JuChain

/-- A set of blocks with distinct hashes and a genesis block. -/
structure BlockTree where
  blocks : Set Block
  genesis : Block
  genesis_mem : genesis ∈ blocks
  genesis_number : genesis.number = 0
  hash_inj : ∀ a ∈ blocks, ∀ b ∈ blocks, a.hash = b.hash → a = b

/-- The blocks with their parents. -/
def BlockTree.forest (T : BlockTree) : Forest Block where
  Parent b p := b ∈ T.blocks ∧ p ∈ T.blocks ∧ p.hash = b.parentHash ∧ b.number = p.number + 1
  height := Block.number
  parent_unique := fun hp hq =>
    T.hash_inj _ hp.2.1 _ hq.2.1 (hp.2.2.1.trans hq.2.2.1.symm)
  height_parent := fun hp => hp.2.2.2

/-- A block to write, and the coin that is tossed for it. -/
structure BlockTree.Call (T : BlockTree) where
  block : Block
  mem : block ∈ T.blocks
  coin : Bool

/-- `WriteBlockWithState` as a step. -/
def BlockTree.write (T : BlockTree) (archive : Bool) (bc : BlockChain) (call : T.Call) :
    Option BlockChain :=
  (bc.writeBlockWithState archive call.block call.coin).map BlockChain.Written.chain

/-- The block is stored. -/
def Database.Has (db : Database) (b : Block) : Prop := db.getBlock b.hash b.number = some b

variable {T : BlockTree} {db : Database} {bc : BlockChain} {b p x : Block}

section

variable (h : T.forest.Parent b p)
include h

theorem BlockTree.number_of_parent : b.number = p.number + 1 := h.2.2.2

theorem BlockTree.ne_genesis : b ≠ T.genesis := by
  rintro rfl
  have := BlockTree.number_of_parent h
  have := T.genesis_number
  omega

theorem Database.getParent_eq : db.getParent b = db.getBlock p.hash p.number := by
  unfold Database.getParent
  rw [h.2.2.2, h.2.2.1]

theorem Database.getParentTd_eq : db.getParentTd b = db.getTd p.hash p.number := by
  unfold Database.getParentTd
  rw [h.2.2.2, h.2.2.1]

end

/-- What every write keeps of the records. -/
structure Sound (T : BlockTree) (bc : BlockChain) : Prop where
  filed : ∀ {hash number b}, bc.db.getBlock hash number = some b →
    b ∈ T.blocks ∧ b.number = number ∧ b.hash = hash
  rooted : ∀ {b}, bc.db.Has b → b = T.genesis ∨ ∃ p, T.forest.Parent b p ∧ bc.db.Has p
  weighed : ∀ hash number,
    (bc.db.getTd hash number).isSome = (bc.db.getBlock hash number).isSome
  head : bc.db.Has bc.currentBlock

theorem Sound.mem (sound : Sound T bc) (h : bc.db.Has b) : b ∈ T.blocks := (sound.filed h).1

theorem Sound.exists_td (sound : Sound T bc) (h : bc.db.Has b) :
    ∃ td, bc.db.getTd b.hash b.number = some td := by
  apply Option.isSome_iff_exists.1
  rw [sound.weighed, h]
  rfl

theorem Sound.parent_of_td (sound : Sound T bc) (hb : b ∈ T.blocks) {ptd : ℤ}
    (h : bc.db.getParentTd b = some ptd) :
    ∃ p, T.forest.Parent b p ∧ bc.db.Has p ∧ bc.db.getTd p.hash p.number = some ptd := by
  unfold Database.getParentTd at h
  split at h
  · simp at h
  · rename_i n hn
    have hsome : (bc.db.getBlock b.parentHash n).isSome := by
      rw [← sound.weighed, h]
      rfl
    obtain ⟨p, hp⟩ := Option.isSome_iff_exists.1 hsome
    obtain ⟨hmem, rfl, hhash⟩ := sound.filed hp
    refine ⟨p, ⟨hb, hmem, hhash, hn⟩, ?_, ?_⟩
    · unfold Database.Has
      rw [hhash]
      exact hp
    · rw [hhash]
      exact h

theorem getBlock_commit {genesis : Block} {hash : Hash} {number : ℕ}
    (h : (BlockChain.commit genesis).db.getBlock hash number = some b) :
    b = genesis ∧ genesis.number = number ∧ genesis.hash = hash := by
  simp only [Database.getBlock, BlockChain.commit, Index.put_apply] at h
  split_ifs at h with hkey
  obtain ⟨hn, hh⟩ := Prod.mk.inj hkey
  exact ⟨(Option.some.inj h).symm, hn.symm, hh.symm⟩

theorem sound_commit (T : BlockTree) : Sound T (BlockChain.commit T.genesis) := by
  constructor
  · intro hash number b h
    obtain ⟨rfl, hn, hh⟩ := getBlock_commit h
    exact ⟨T.genesis_mem, hn, hh⟩
  · intro b h
    exact .inl (getBlock_commit h).1
  · intro hash number
    simp only [Database.getTd, Database.getBlock, BlockChain.commit, Index.put_apply]
    split_ifs <;> rfl
  · exact Index.put_self (fun _ => none) (T.genesis.number, T.genesis.hash) T.genesis

theorem Sound.induction (sound : Sound T bc) {motive : Block → Prop} (genesis : motive T.genesis)
    (child : ∀ b p, T.forest.Parent b p → bc.db.Has b → motive p → motive b)
    (hb : bc.db.Has b) : motive b := by
  induction hn : b.number using Nat.strong_induction_on generalizing b with
  | _ n ih =>
    rcases sound.rooted hb with rfl | ⟨p, hp, has⟩
    · exact genesis
    · have := BlockTree.number_of_parent hp
      exact child b p hp hb (ih p.number (by omega) has rfl)

theorem Sound.genesis_anc (sound : Sound T bc) (hb : bc.db.Has b) : T.forest.Anc T.genesis b := by
  apply sound.induction (.refl _) _ hb
  intro b p hp _ anc
  exact anc.trans (.of_parent hp)

theorem Sound.has_of_anc (sound : Sound T bc) (hb : bc.db.Has b) (anc : T.forest.Anc x b) :
    bc.db.Has x := by
  induction anc with
  | refl => exact hb
  | tail _ hp ih =>
    rcases sound.rooted ih with rfl | ⟨q, hq, has⟩
    · exact absurd rfl (BlockTree.ne_genesis hp)
    · rw [T.forest.parent_unique hp hq]
      exact has

theorem Sound.genesis (sound : Sound T bc) : bc.db.Has T.genesis :=
  sound.has_of_anc sound.head (sound.genesis_anc sound.head)

/-! ## The walks of `reorg` -/

section Walks

/-- The blocks of `K` are of the tree, and so are the parents that are looked up. -/
def Closed (T : BlockTree) (db : Database) (K : Block → Prop) : Prop :=
  ∀ b, K b → b ∈ T.blocks ∧
    (b = T.genesis ∨ ∃ p, T.forest.Parent b p ∧ db.getParent b = some p ∧ K p)

variable {K : Block → Prop} {old new : Block}

section

variable (closed : Closed T db K)
include closed

theorem Closed.exists_parent (hb : K b) (hpos : 0 < b.number) :
    ∃ p, T.forest.Parent b p ∧ db.getParent b = some p ∧ K p := by
  rcases (closed b hb).2 with rfl | h
  · have := T.genesis_number
    omega
  · exact h

theorem Closed.eq_genesis (hb : K b) (hzero : b.number = 0) : b = T.genesis := by
  rcases (closed b hb).2 with h | ⟨p, hp, -⟩
  · exact h
  · have := BlockTree.number_of_parent hp
    omega

theorem reduce_spec {number fuel : ℕ} (hb : K b) (hle : number ≤ b.number) (hfuel : b.number ≤ fuel) :
    ∃ bs e, BlockChain.reduce db number fuel b = some (bs, e) ∧ T.forest.Path b bs e ∧
      e.number = number ∧ K e := by
  induction fuel generalizing b with
  | zero =>
    refine ⟨[], b, ?_, .nil b, by omega, hb⟩
    unfold BlockChain.reduce
    rw [if_pos (by omega)]
  | succ fuel ih =>
    unfold BlockChain.reduce
    by_cases hn : b.number = number
    · exact ⟨[], b, if_pos hn, .nil b, hn, hb⟩
    · obtain ⟨p, hp, hget, hK⟩ := closed.exists_parent hb (by omega)
      have := BlockTree.number_of_parent hp
      obtain ⟨bs, e, hrun, path, he, hKe⟩ := ih hK (by omega) (by omega)
      refine ⟨b :: bs, e, ?_, .cons hp path, he, hKe⟩
      simp only [if_neg hn, hget, Option.bind_some, hrun, Option.map_some]

theorem meet_spec {fuel : ℕ} (hold : K old) (hnew : K new) (hnum : old.number = new.number)
    (hfuel : old.number ≤ fuel) :
    ∃ os ns c, BlockChain.meet db fuel old new = .ok (os, ns) ∧ T.forest.Path old os c ∧
      T.forest.Path new ns c := by
  induction fuel generalizing old new with
  | zero =>
    have hold := closed.eq_genesis hold (by omega)
    have hnew := closed.eq_genesis hnew (by omega)
    subst hold hnew
    refine ⟨[], [], T.genesis, ?_, .nil _, .nil _⟩
    unfold BlockChain.meet
    rw [if_pos rfl]
  | succ fuel ih =>
    unfold BlockChain.meet
    by_cases heq : old.hash = new.hash
    · obtain rfl := T.hash_inj old (closed old hold).1 new (closed new hnew).1 heq
      exact ⟨[], [], old, if_pos rfl, .nil _, .nil _⟩
    · -- two blocks of number 0 would both be the genesis block
      have hpos : 0 < old.number := by
        by_contra hzero
        apply heq
        rw [closed.eq_genesis hold (by omega), closed.eq_genesis hnew (by omega)]
      obtain ⟨op, hop, hgetO, hKo⟩ := closed.exists_parent hold hpos
      obtain ⟨np, hnp, hgetN, hKn⟩ := closed.exists_parent hnew (by omega)
      have := BlockTree.number_of_parent hop
      have := BlockTree.number_of_parent hnp
      obtain ⟨os, ns, c, hrun, pathO, pathN⟩ := ih hKo hKn (by omega) (by omega)
      refine ⟨old :: os, new :: ns, c, ?_, .cons hop pathO, .cons hnp pathN⟩
      simp only [if_neg heq, hgetO, hgetN, hrun]
      rfl

theorem branches_spec (hold : K old) (hnew : K new) :
    ∃ os ns c, BlockChain.branches db old new = .ok (os, ns) ∧ T.forest.Path old os c ∧
      T.forest.Path new ns c := by
  unfold BlockChain.branches
  split_ifs with hlt
  · obtain ⟨bs, e, hrun, path, he, hKe⟩ :=
      reduce_spec closed hold (show new.number ≤ old.number by omega) le_rfl
    obtain ⟨os, ns, c, hmeet, pathO, pathN⟩ := meet_spec closed hKe hnew he le_rfl
    refine ⟨bs ++ os, ns, c, ?_, path.append pathO, pathN⟩
    simp only [hrun, hmeet]
    rfl
  · obtain ⟨bs, e, hrun, path, he, hKe⟩ :=
      reduce_spec closed hnew (show old.number ≤ new.number by omega) le_rfl
    obtain ⟨os, ns, c, hmeet, pathO, pathN⟩ := meet_spec closed hold hKe he.symm he.ge
    refine ⟨os, bs ++ ns, c, ?_, pathO, path.append pathN⟩
    simp only [hrun, hmeet]
    rfl

end

end Walks

end JuChain
