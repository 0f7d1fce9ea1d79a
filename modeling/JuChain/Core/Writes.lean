import JuChain.Core.Store

/-!
# Block writes

`write_cases` says all that a call of `WriteBlockWithState` can do to a sound chain: it refuses a
block without parent, files it (`Recorded`), or files it and moves the head to it (`Adopted`).
-/

namespace JuChain

open List Option Index

variable {T : BlockTree} {bc bc' : BlockChain} {b p x : Block} {archive : Bool} {call : T.Call}

/-! ## What a call does -/

/-- Where the block is filed. -/
def Block.position (b : Block) : ℕ × Hash := (b.number, b.hash)

section Switch

variable (bc : BlockChain) (blocks os ns : List Block)

theorem insertAll_db : (blocks.foldl (fun bc b => { bc.insert b with
      db := (bc.insert b).db.writeTxLookupEntries b }) bc).db =
    { bc.db with
      canonical := putAll bc.db.canonical (blocks.map Block.position)
      lookup := putAll bc.db.lookup (blocks.flatMap Block.lookupEntries) } := by
  induction blocks generalizing bc with
  | nil => rfl
  | cons b blocks ih =>
    rw [foldl_cons, ih, flatMap_cons, putAll_append]
    rfl

theorem deleteAll_eq (db : Database) (txs : List Transaction) :
    txs.foldl (fun db tx => db.deleteTxLookupEntry tx.hash) db =
      { db with lookup := eraseAll db.lookup (txs.map Transaction.hash) } := by
  induction txs generalizing db with
  | nil => rfl
  | cons tx txs ih =>
    rw [foldl_cons, ih]
    rfl

theorem switch_db : (bc.switch os ns).db = { bc.db with
        canonical := putAll bc.db.canonical (ns.reverse.map Block.position)
        lookup := eraseAll
          (putAll bc.db.lookup (ns.reverse.flatMap Block.lookupEntries))
          ((txDifference (os.flatMap Block.transactions)
            (ns.reverse.flatMap Block.transactions)).map Transaction.hash) } := by
  unfold BlockChain.switch
  simp only [deleteAll_eq, insertAll_db]

end Switch

/-- The hashes of the transactions. -/
def Block.txHashes (b : Block) : List Hash := b.transactions.map Transaction.hash

theorem Block.mem_lookupEntries {h : Hash} {e : TxLookupEntry} : (h, e) ∈ b.lookupEntries ↔
      ∃ i tx, b.transactions[i]? = some tx ∧ tx.hash = h ∧ e = ⟨b.hash, b.number, i⟩ := by
  simp only [Block.lookupEntries, mem_iff_getElem?, getElem?_mapIdx,
    map_eq_some_iff, Prod.mk.injEq]
  constructor
  · rintro ⟨i, tx, htx, rfl, rfl⟩
    exact ⟨i, tx, htx, rfl, rfl⟩
  · rintro ⟨i, tx, htx, rfl, rfl⟩
    exact ⟨i, tx, htx, rfl, rfl⟩

theorem Block.mem_txHashes {h : Hash} : h ∈ b.txHashes ↔ ∃ e, (h, e) ∈ b.lookupEntries := by
  simp only [Block.txHashes, List.mem_map, Block.mem_lookupEntries]
  constructor
  · rintro ⟨tx, htx, rfl⟩
    obtain ⟨i, hi⟩ := mem_iff_getElem?.1 htx
    exact ⟨_, i, tx, hi, rfl, rfl⟩
  · rintro ⟨_, i, tx, htx, rfl, -⟩
    exact ⟨tx, mem_of_getElem? htx, rfl⟩

/-- The block is stored with its total difficulty, and nothing else is. -/
structure Recorded (T : BlockTree) (bc bc' : BlockChain) (b p : Block) (ptd : ℤ) : Prop where
  parent : T.forest.Parent b p
  has : bc.db.Has p
  ptd_eq : bc.db.getTd p.hash p.number = some ptd
  block : bc'.db.block = put bc.db.block ((b.number, b.hash), b)
  td : bc'.db.td = put bc.db.td ((b.number, b.hash), b.difficulty + ptd)

/-- The block becomes the head.  Its branch `ns` and the former one `os` meet at `c`; positions and
lookup entries of `ns` replace those of `os`. -/
structure Adopted (T : BlockTree) (bc bc' : BlockChain) (b : Block) (os ns : List Block)
    (c : Block) : Prop where
  head : bc'.currentBlock = b
  old : T.forest.Path bc.currentBlock os c
  new : T.forest.Path b ns c
  canonical_new : ∀ {x}, x ∈ ns ∨ x = b → bc'.db.canonical x.number = some x.hash
  canonical_kept : ∀ {n}, (∀ x, x ∈ ns ∨ x = b → x.number ≠ n) →
    bc'.db.canonical n = bc.db.canonical n
  lookup_new : ∀ {h e x}, x ∈ ns ∨ x = b → (h, e) ∈ x.lookupEntries →
    (∀ y e', y ∈ ns ∨ y = b → (h, e') ∈ y.lookupEntries → e' = e) → bc'.db.lookup h = some e
  lookup_gone : ∀ {h x}, x ∈ os → h ∈ x.txHashes → (∀ y, y ∈ ns ∨ y = b → h ∉ y.txHashes) →
    bc'.db.lookup h = none
  lookup_kept : ∀ {h}, (∀ x ∈ os, h ∉ x.txHashes) → (∀ y, y ∈ ns ∨ y = b → h ∉ y.txHashes) →
    bc'.db.lookup h = bc.db.lookup h

section Adopted

variable {bc₁ : BlockChain} {os ns : List Block} {c : Block} {h : Hash}

theorem mem_txDifference {as bs : List Block} : h ∈ (txDifference (as.flatMap Block.transactions)
      (bs.flatMap Block.transactions)).map Transaction.hash ↔
      (∃ x ∈ as, h ∈ x.txHashes) ∧ ∀ y ∈ bs, h ∉ y.txHashes := by
  simp only [txDifference, Block.txHashes, List.mem_map, mem_filter, mem_flatMap,
    decide_eq_true_eq]
  constructor
  · rintro ⟨tx, ⟨⟨x, hx, htx⟩, hnot⟩, rfl⟩
    refine ⟨⟨x, hx, tx, htx, rfl⟩, ?_⟩
    rintro y hy ⟨tx', htx', heq⟩
    exact hnot ⟨tx', ⟨y, hy, htx'⟩, heq⟩
  · rintro ⟨⟨x, hx, tx, htx, rfl⟩, hnot⟩
    refine ⟨tx, ⟨⟨x, hx, htx⟩, ?_⟩, rfl⟩
    rintro ⟨tx', ⟨y, hy, htx'⟩, heq⟩
    exact hnot y hy ⟨tx', htx', heq⟩

theorem putAll_lookupEntries_of_notMem (m : Hash → Option TxLookupEntry) (hb : h ∉ b.txHashes) :
    putAll m b.lookupEntries h = m h := by
  apply putAll_of_notMem
  rintro ⟨k, e⟩ hmem rfl
  exact hb (Block.mem_txHashes.2 ⟨e, hmem⟩)

theorem adopted_of_extend (parent : T.forest.Parent b bc.currentBlock) (head : bc'.currentBlock = b)
    (canonical : bc'.db.canonical = put bc.db.canonical b.position)
    (lookup : bc'.db.lookup = putAll bc.db.lookup b.lookupEntries) :
    Adopted T bc bc' b [] [b] bc.currentBlock where
  head := head
  old := .nil _
  new := .cons parent (.nil _)
  canonical_new := by
    rintro x hx
    obtain rfl : x = b := by simpa using hx
    rw [canonical]
    exact put_self _ x.number x.hash
  canonical_kept := by
    intro n hn
    rw [canonical, put_apply, if_neg]
    exact fun heq => hn b (.inr rfl) heq.symm
  lookup_new := by
    intro h e x hx hmem huniq
    obtain rfl : x = b := by simpa using hx
    rw [lookup]
    apply putAll_of_mem hmem
    rintro ⟨k, e'⟩ hk rfl
    exact huniq x e' (.inr rfl) hk
  lookup_gone := by simp
  lookup_kept := by
    intro h _ hb
    rw [lookup]
    exact putAll_lookupEntries_of_notMem _ (hb b (.inr rfl))

theorem adopted_of_switch (old : T.forest.Path bc.currentBlock os c)
    (new : T.forest.Path b ns c) (same_canonical : bc₁.db.canonical = bc.db.canonical)
    (same_lookup : bc₁.db.lookup = bc.db.lookup) (head : bc'.currentBlock = b)
    (canonical : bc'.db.canonical = put (bc₁.switch os ns).db.canonical b.position)
    (lookup : bc'.db.lookup = putAll (bc₁.switch os ns).db.lookup b.lookupEntries) :
    Adopted T bc bc' b os ns c where
  head := head
  old := old
  new := new
  canonical_new := by
    intro x hx
    rw [canonical, put_apply]
    split_ifs with hnum
    · have hxb : x = b := by
        rcases hx with hx | rfl
        · exact (new.anc_iff.2 (.inl hx)).unique (.refl b) hnum
        · rfl
      rw [hxb]
      rfl
    · have hx : x ∈ ns := hx.resolve_right fun heq => hnum (by rw [heq]; rfl)
      rw [switch_db]
      apply putAll_of_mem
      · exact mem_map_of_mem (mem_reverse.2 hx)
      · intro q hq hqx
        obtain ⟨y, hy, rfl⟩ := mem_map.1 hq
        rw [new.eq_of_height_eq (mem_reverse.1 hy) hx hqx]
        rfl
  canonical_kept := by
    intro n hn
    rw [canonical, put_apply, if_neg fun heq => hn b (.inr rfl) heq.symm, switch_db,
      ← same_canonical]
    apply putAll_of_notMem
    intro q hq
    obtain ⟨y, hy, rfl⟩ := mem_map.1 hq
    exact hn y (.inl (mem_reverse.1 hy))
  lookup_new := by
    intro h e x hx hmem huniq
    rw [lookup]
    by_cases hb : h ∈ b.txHashes
    · obtain ⟨e', he'⟩ := Block.mem_txHashes.1 hb
      obtain rfl := huniq b e' (.inr rfl) he'
      apply putAll_of_mem he'
      rintro ⟨k, e⟩ hk rfl
      exact huniq b e (.inr rfl) hk
    · have hxs : x ∈ ns := by
        rcases hx with hx | rfl
        · exact hx
        · exact absurd (Block.mem_txHashes.2 ⟨e, hmem⟩) hb
      rw [putAll_lookupEntries_of_notMem _ hb, switch_db]
      show eraseAll _ _ h = some e
      rw [eraseAll_apply, if_neg]
      · apply putAll_of_mem
        · exact mem_flatMap.2 ⟨x, mem_reverse.2 hxs, hmem⟩
        · rintro ⟨k, e'⟩ hk rfl
          obtain ⟨y, hy, hk⟩ := mem_flatMap.1 hk
          exact huniq y e' (.inl (mem_reverse.1 hy)) hk
      · intro hdiff
        exact (mem_txDifference.1 hdiff).2 x (mem_reverse.2 hxs)
          (Block.mem_txHashes.2 ⟨e, hmem⟩)
  lookup_gone := by
    intro h x hx hmem hnew
    rw [lookup, putAll_lookupEntries_of_notMem _ (hnew b (.inr rfl)), switch_db]
    show eraseAll _ _ h = none
    rw [eraseAll_apply, if_pos]
    exact mem_txDifference.2 ⟨⟨x, hx, hmem⟩, fun y hy => hnew y (.inl (mem_reverse.1 hy))⟩
  lookup_kept := by
    intro h hold hnew
    rw [lookup, putAll_lookupEntries_of_notMem _ (hnew b (.inr rfl)), switch_db]
    show eraseAll _ _ h = bc.db.lookup h
    rw [eraseAll_apply, if_neg, ← same_lookup]
    · apply putAll_of_notMem
      rintro ⟨k, e⟩ hk rfl
      obtain ⟨y, hy, hk⟩ := mem_flatMap.1 hk
      exact hnew y (.inl (mem_reverse.1 hy)) (Block.mem_txHashes.2 ⟨e, hk⟩)
    · intro hdiff
      obtain ⟨⟨x, hx, hmem⟩, -⟩ := mem_txDifference.1 hdiff
      exact hold x hx hmem

end Adopted

/-- All that a call on the block `b` can do to the chain. -/
inductive Wrote (T : BlockTree) (bc : BlockChain) (b : Block) (coin : Bool) : BlockChain → Prop
  | refused (unknown : bc.db.getParentTd b = none) : Wrote T bc b coin bc
  | side {bc' : BlockChain} {p : Block} {ptd localTd : ℤ} (recorded : Recorded T bc bc' b p ptd)
      (local_eq : bc.db.getTd bc.currentBlock.hash bc.currentBlock.number = some localTd)
      (stays : ¬ BlockChain.takesOver (b.difficulty + ptd) localTd b.number
        bc.currentBlock.number coin)
      (head : bc'.currentBlock = bc.currentBlock) (canonical : bc'.db.canonical = bc.db.canonical)
      (lookup : bc'.db.lookup = bc.db.lookup) : Wrote T bc b coin bc'
  | adopted {bc' : BlockChain} {p c : Block} {ptd localTd : ℤ} {os ns : List Block}
      (recorded : Recorded T bc bc' b p ptd)
      (local_eq : bc.db.getTd bc.currentBlock.hash bc.currentBlock.number = some localTd)
      (wins : BlockChain.takesOver (b.difficulty + ptd) localTd b.number
        bc.currentBlock.number coin)
      (change : Adopted T bc bc' b os ns c) : Wrote T bc b coin bc'

theorem Sound.closed (sound : Sound T bc) (parent : T.forest.Parent b p) (has : bc.db.Has p) :
    Closed T bc.db fun x => bc.db.Has x ∨ x = b := by
  rintro x (hx | rfl)
  · refine ⟨sound.mem hx, ?_⟩
    rcases sound.rooted hx with hg | ⟨q, hq, hasq⟩
    · exact .inl hg
    · exact .inr ⟨q, hq, by rw [Database.getParent_eq hq]; exact hasq, .inl hasq⟩
  · exact ⟨parent.1, .inr ⟨p, parent, by rw [Database.getParent_eq parent]; exact has, .inl has⟩⟩

theorem Sound.reorg (sound : Sound T bc) (parent : T.forest.Parent b p) (has : bc.db.Has p)
    {bc₁ : BlockChain} {td : ℤ} (hbc₁ : bc₁ = { bc with db := bc.db.writeTd b.hash b.number td }) :
    ∃ os ns c, bc₁.reorg bc.currentBlock b = .ok (bc₁.switch os ns) ∧
      T.forest.Path bc.currentBlock os c ∧ T.forest.Path b ns c := by
  subst hbc₁
  have closed : Closed T (bc.db.writeTd b.hash b.number td) fun x => bc.db.Has x ∨ x = b :=
    sound.closed parent has
  obtain ⟨os, ns, c, hrun, old, new⟩ := branches_spec closed (.inl sound.head) (.inr rfl)
  refine ⟨os, ns, c, ?_, old, new⟩
  unfold BlockChain.reorg
  rw [hrun]
  rfl

theorem write_cases (sound : Sound T bc)
    (h : T.write archive bc call = some bc') : Wrote T bc call.block call.coin bc' := by
  obtain ⟨b, hb, coin⟩ := call
  obtain ⟨w, hw, rfl⟩ := map_eq_some_iff.1 h
  unfold BlockChain.writeBlockWithState at hw
  cases hptd : bc.db.getParentTd b with
  | none =>
    rw [hptd] at hw
    obtain rfl := some.inj hw
    exact .refused hptd
  | some ptd =>
    obtain ⟨p, parent, has, hp⟩ := sound.parent_of_td hb hptd
    obtain ⟨localTd, hlocal⟩ := sound.exists_td sound.head
    obtain ⟨os, ns, c, hreorg, old, new⟩ := sound.reorg parent has rfl
    simp only [hptd, hlocal] at hw
    split at hw
    · simp at hw
    split at hw
    · rename_i wins
      by_cases hparent : b.parentHash = bc.currentBlock.hash
      · -- the parent is the head
        obtain rfl := T.hash_inj p parent.2.1 bc.currentBlock (sound.mem sound.head)
          (parent.2.2.1.trans hparent)
        rw [if_neg (not_not.2 hparent)] at hw
        obtain rfl := some.inj hw
        exact .adopted ⟨parent, has, hp, rfl, rfl⟩ hlocal wins
          (adopted_of_extend parent rfl rfl rfl)
      · rw [if_pos hparent, hreorg] at hw
        obtain rfl := some.inj hw
        refine .adopted ⟨parent, has, hp, ?_, ?_⟩ hlocal wins
          (adopted_of_switch old new ?_ ?_ rfl rfl rfl)
        · show put (BlockChain.switch _ os ns).db.block _ = _
          rw [switch_db]
          rfl
        · show (BlockChain.switch _ os ns).db.td = _
          rw [switch_db]
          rfl
        · rfl
        · rfl
    · rename_i stays
      obtain rfl := some.inj hw
      exact .side ⟨parent, has, hp, rfl, rfl⟩ hlocal stays rfl rfl rfl

/-- The only panic of a call on a sound chain is the one of garbage collection. -/
theorem write_eq_none_iff (sound : Sound T bc) : T.write archive bc call = none ↔
    bc.db.getParentTd call.block ≠ none ∧
      BlockChain.headerMissing archive bc.db call.block := by
  obtain ⟨b, hb, coin⟩ := call
  unfold BlockTree.write BlockChain.writeBlockWithState
  rw [map_eq_none_iff]
  cases hptd : bc.db.getParentTd b with
  | none => simp
  | some ptd =>
    obtain ⟨localTd, hlocal⟩ := sound.exists_td sound.head
    -- the lookup does not read the total difficulty that was just written
    have same : BlockChain.headerMissing archive
        (bc.db.writeTd b.hash b.number (b.difficulty + ptd)) b ↔
          BlockChain.headerMissing archive bc.db b := Iff.rfl
    simp only [hlocal, same, ne_eq, reduceCtorEq, not_false_eq_true, true_and]
    by_cases missing : BlockChain.headerMissing archive bc.db b
    · rw [if_pos missing]
      exact iff_of_true rfl missing
    · rw [if_neg missing]
      refine iff_of_false ?_ missing
      split
      · split <;> simp
      · simp

/-! ## Soundness along a run -/

section Recorded

variable {ptd : ℤ}

section

variable (recorded : Recorded T bc bc' b p ptd)
include recorded

theorem Recorded.parentTd : bc.db.getParentTd b = some ptd := by
  rw [Database.getParentTd_eq recorded.parent]
  exact recorded.ptd_eq

theorem Recorded.getBlock (hash : Hash) (number : ℕ) : bc'.db.getBlock hash number =
      if (number, hash) = (b.number, b.hash) then some b else bc.db.getBlock hash number := by
  unfold Database.getBlock
  rw [recorded.block, put_apply]

theorem Recorded.getTd (hash : Hash) (number : ℕ) : bc'.db.getTd hash number =
      if (number, hash) = (b.number, b.hash) then some (b.difficulty + ptd)
      else bc.db.getTd hash number := by
  unfold Database.getTd
  rw [recorded.td, put_apply]

theorem Recorded.getTd_self : bc'.db.getTd b.hash b.number = some (b.difficulty + ptd) := by
  rw [recorded.getTd, if_pos rfl]

theorem Recorded.getTd_of_ne (hx : x ∈ T.blocks) (hne : x ≠ b) :
    bc'.db.getTd x.hash x.number = bc.db.getTd x.hash x.number := by
  rw [recorded.getTd, if_neg]
  intro heq
  exact hne (T.hash_inj x hx b recorded.parent.1 (Prod.mk.inj heq).2)

end

theorem Recorded.has_iff (sound : Sound T bc) (recorded : Recorded T bc bc' b p ptd) :
    bc'.db.Has x ↔ bc.db.Has x ∨ x = b := by
  unfold Database.Has
  rw [recorded.getBlock]
  split_ifs with hkey
  · constructor
    · intro h
      exact .inr (some.inj h).symm
    · rintro (h | rfl)
      · rw [T.hash_inj x (sound.mem h) b recorded.parent.1 (Prod.mk.inj hkey).2]
      · rfl
  · constructor
    · exact .inl
    · rintro (h | rfl)
      · exact h
      · exact absurd rfl hkey

theorem Recorded.sound (sound : Sound T bc) (recorded : Recorded T bc bc' b p ptd)
    (head : bc'.currentBlock = bc.currentBlock ∨ bc'.currentBlock = b) : Sound T bc' := by
  constructor
  · intro hash number x hx
    rw [recorded.getBlock] at hx
    split_ifs at hx with hkey
    · obtain rfl := some.inj hx
      obtain ⟨rfl, rfl⟩ := Prod.mk.inj hkey
      exact ⟨recorded.parent.1, rfl, rfl⟩
    · exact sound.filed hx
  · intro x hx
    rcases (recorded.has_iff sound).1 hx with hx | rfl
    · rcases sound.rooted hx with hg | ⟨q, hq, hasq⟩
      · exact .inl hg
      · exact .inr ⟨q, hq, (recorded.has_iff sound).2 (.inl hasq)⟩
    · exact .inr ⟨p, recorded.parent, (recorded.has_iff sound).2 (.inl recorded.has)⟩
  · intro hash number
    rw [recorded.getTd, recorded.getBlock]
    split_ifs
    · rfl
    · exact sound.weighed hash number
  · apply (recorded.has_iff sound).2
    rcases head with head | head
    · rw [head]
      exact .inl sound.head
    · exact .inr head

end Recorded

theorem Sound.step (sound : Sound T bc) {coin : Bool} (wrote : Wrote T bc b coin bc') :
    Sound T bc' := by
  cases wrote with
  | refused => exact sound
  | side recorded _ _ head => exact recorded.sound sound (.inl head)
  | adopted recorded _ _ change => exact recorded.sound sound (.inr change.head)

end JuChain
