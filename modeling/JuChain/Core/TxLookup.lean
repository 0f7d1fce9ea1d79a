import JuChain.Core.Canonical

/-!
# The transaction lookup index

`preCheck` lets a transaction in only with the current nonce of its sender, so no transaction is on
a chain twice (`occurs_once`), and the lookup index holds the transactions of the head's chain.
-/

namespace JuChain

/-! ## Nonces -/

/-- The nonces of the signing accounts, which only their own transactions change. -/
abbrev Nonces := Address → ℕ

/-- A transaction has to have the next nonce. -/
def applyTransaction (nonces : Nonces) (tx : Transaction) : Option Nonces :=
  if nonces tx.sender = tx.nonce then
    some (Function.update nonces tx.sender (nonces tx.sender + 1))
  else none

/-- The transactions of a block, one after the other. -/
def process (nonces : Nonces) (txs : List Transaction) : Option Nonces :=
  txs.foldlM applyTransaction nonces

variable {nonces nonces' : Nonces} {t u : Transaction} {txs : List Transaction}

theorem applyTransaction_eq_some (h : applyTransaction nonces t = some nonces') :
    nonces t.sender = t.nonce ∧ nonces' t.sender = t.nonce + 1 ∧ ∀ a, nonces a ≤ nonces' a := by
  unfold applyTransaction at h
  split_ifs at h with hn
  obtain rfl := Option.some.inj h
  refine ⟨hn, ?_, ?_⟩
  · rw [Function.update_self, hn]
  · intro a
    rw [Function.update_apply]
    split_ifs with ha
    · rw [ha]
      omega
    · exact le_rfl

theorem process_cons : process nonces (t :: txs) = some nonces' ↔
      ∃ next, applyTransaction nonces t = some next ∧ process next txs = some nonces' := by
  exact Option.bind_eq_some_iff

section

variable (h : process nonces txs = some nonces')
include h

theorem process_le (a : Address) : nonces a ≤ nonces' a := by
  induction txs generalizing nonces with
  | nil => exact (congrFun (Option.some.inj h) a).le
  | cons t txs ih =>
    obtain ⟨next, hnext, hrest⟩ := process_cons.1 h
    exact ((applyTransaction_eq_some hnext).2.2 a).trans (ih hrest)

theorem process_mem (ht : t ∈ txs) : nonces t.sender ≤ t.nonce ∧ t.nonce < nonces' t.sender := by
  induction txs generalizing nonces with
  | nil => simp at ht
  | cons v txs ih =>
    obtain ⟨next, hnext, hrest⟩ := process_cons.1 h
    obtain ⟨hnonce, hnonce', hle⟩ := applyTransaction_eq_some hnext
    rcases List.mem_cons.1 ht with rfl | ht
    · have := process_le hrest t.sender
      omega
    · have := ih hrest ht
      have := hle t.sender
      omega

theorem process_nodup : txs.Nodup := by
  induction txs generalizing nonces with
  | nil => exact List.nodup_nil
  | cons v txs ih =>
    obtain ⟨next, hnext, hrest⟩ := process_cons.1 h
    obtain ⟨-, hnonce, -⟩ := applyTransaction_eq_some hnext
    refine List.nodup_cons.2 ⟨?_, ih hrest⟩
    intro hv
    have := process_mem hrest hv
    omega

end

/-! ## Trees of executed blocks -/

/-- A tree of blocks executed on the states of their parents; transactions are known by their
hashes. -/
structure ExecutedTree extends BlockTree where
  nonces : Block → Nonces
  executed : ∀ {b p}, toBlockTree.forest.Parent b p →
    process (nonces p) b.transactions = some (nonces b)
  tx_inj : ∀ a ∈ blocks, ∀ b ∈ blocks, ∀ t ∈ a.transactions, ∀ u ∈ b.transactions,
    t.hash = u.hash → t = u

namespace ExecutedTree

variable {T : ExecutedTree} {a b c p q : Block}

theorem nonces_le (h : T.forest.Anc a b) (s : Address) : T.nonces a s ≤ T.nonces b s := by
  induction h with
  | refl => exact le_rfl
  | tail _ hp ih => exact (process_le (T.executed hp) s).trans ih

theorem not_mem_above (hp : T.forest.Parent b p) (hq : T.forest.Parent c q)
    (anc : T.forest.Anc b q) (hb : t ∈ b.transactions) : t ∉ c.transactions := by
  intro hc
  have hlow := process_mem (T.executed hp) hb
  have hhigh := process_mem (T.executed hq) hc
  have := nonces_le anc t.sender
  omega

theorem occurs_once (hp : T.forest.Parent a p) (hq : T.forest.Parent b q)
    (ha : T.forest.Anc a c) (hb : T.forest.Anc b c) {i j : ℕ}
    (ht : a.transactions[i]? = some t) (hu : b.transactions[j]? = some u)
    (heq : t.hash = u.hash) : a = b ∧ i = j := by
  have hta := List.mem_of_getElem? ht
  have hub := List.mem_of_getElem? hu
  obtain rfl := T.tx_inj a hp.1 b hq.1 t hta u hub heq
  have hap := BlockTree.number_of_parent hp
  have hbq := BlockTree.number_of_parent hq
  rcases Nat.lt_trichotomy a.number b.number with hlt | hnum | hlt
  · have anc : T.forest.Anc a q :=
      ha.of_height_le ((Forest.Anc.of_parent hq).trans hb) (show a.number ≤ q.number by omega)
    exact absurd hub (not_mem_above hp hq anc hta)
  · obtain rfl := ha.unique hb hnum
    obtain ⟨hi, -⟩ := List.getElem?_eq_some_iff.1 ht
    exact ⟨rfl, (List.getElem?_inj hi (process_nodup (T.executed hp))).1 (ht.trans hu.symm)⟩
  · have anc : T.forest.Anc b p :=
      hb.of_height_le ((Forest.Anc.of_parent hp).trans ha) (show b.number ≤ p.number by omega)
    exact absurd hta (not_mem_above hq hp anc hub)

theorem entry_unique (hp : T.forest.Parent a p) (hq : T.forest.Parent b q)
    (ha : T.forest.Anc a c) (hb : T.forest.Anc b c) {h : Hash} {e f : TxLookupEntry}
    (he : (h, e) ∈ a.lookupEntries) (hf : (h, f) ∈ b.lookupEntries) : a = b ∧ e = f := by
  obtain ⟨i, t, ht, rfl, rfl⟩ := Block.mem_lookupEntries.1 he
  obtain ⟨j, u, hu, heq, rfl⟩ := Block.mem_lookupEntries.1 hf
  obtain ⟨rfl, rfl⟩ := occurs_once hp hq ha hb ht hu heq.symm
  exact ⟨rfl, rfl⟩

end ExecutedTree

/-! ## The index along a run -/

/-- The index holds the transactions of the head's chain, genesis apart. -/
def Indexed (T : BlockTree) (bc : BlockChain) : Prop :=
  ∀ h e, bc.db.lookup h = some e ↔
    ∃ a i tx, T.forest.Anc a bc.currentBlock ∧ a ≠ T.genesis ∧ a.transactions[i]? = some tx ∧
      tx.hash = h ∧ e = ⟨a.hash, a.number, i⟩

/-- The entry is one of an ancestor of the block. -/
def Entry (T : BlockTree) (b : Block) (h : Hash) (e : TxLookupEntry) : Prop :=
  ∃ a, T.forest.Anc a b ∧ a ≠ T.genesis ∧ (h, e) ∈ a.lookupEntries

theorem indexed_iff {T : BlockTree} {bc : BlockChain} :
    Indexed T bc ↔ ∀ h e, bc.db.lookup h = some e ↔ Entry T bc.currentBlock h e := by
  unfold Indexed Entry
  simp only [Block.mem_lookupEntries, exists_and_left]

theorem indexed_commit (T : BlockTree) : Indexed T (BlockChain.commit T.genesis) := by
  intro h e
  constructor
  · intro hsome
    simp [BlockChain.commit] at hsome
  · rintro ⟨a, i, tx, ha, hne, -⟩
    have hg : T.genesis.number ≤ a.number := by
      rw [T.genesis_number]
      omega
    exact absurd (ha.eq_of_height_le hg) hne

section Step

variable {T : ExecutedTree} {bc bc' : BlockChain} {a b c : Block} {os ns : List Block}
  {coin : Bool} {h : Hash} {e : TxLookupEntry}

theorem Sound.entry_unique (sound : Sound T.toBlockTree bc) (hc : bc.db.Has c)
    (ha : T.forest.Anc a c) (hb : T.forest.Anc b c) (ga : a ≠ T.genesis) (gb : b ≠ T.genesis)
    {f : TxLookupEntry} (he : (h, e) ∈ a.lookupEntries) (hf : (h, f) ∈ b.lookupEntries) :
    a = b ∧ e = f := by
  obtain ⟨p, hp, -⟩ := (sound.rooted (sound.has_of_anc hc ha)).resolve_left ga
  obtain ⟨q, hq, -⟩ := (sound.rooted (sound.has_of_anc hc hb)).resolve_left gb
  exact ExecutedTree.entry_unique hp hq ha hb he hf

section

variable (change : Adopted T.toBlockTree bc bc' b os ns c) {x : Block}
include change

theorem Adopted.new_anc (hb : b ≠ T.genesis) (hx : x ∈ ns ∨ x = b) :
    T.forest.Anc x b ∧ x ≠ T.genesis := by
  rcases hx with hx | rfl
  · refine ⟨change.new.anc_iff.2 (.inl hx), ?_⟩
    rintro rfl
    have hlt : c.number < T.genesis.number := change.new.height_lt hx
    rw [T.genesis_number] at hlt
    omega
  · exact ⟨.refl x, hb⟩

theorem Adopted.anc_common (hnew : ∀ y, y ∈ ns ∨ y = b → h ∉ y.txHashes) (ha : T.forest.Anc a b)
    (he : (h, e) ∈ a.lookupEntries) : T.forest.Anc a c := by
  refine (change.new.anc_iff.1 ha).resolve_left fun hans => ?_
  exact hnew a (.inl hans) (Block.mem_txHashes.2 ⟨e, he⟩)

theorem Adopted.entry_new (sound' : Sound T.toBlockTree bc') (hb : b ≠ T.genesis)
    (hx : x ∈ ns ∨ x = b) (hxh : h ∈ x.txHashes) :
    bc'.db.lookup h = some e ↔ Entry T.toBlockTree b h e := by
  obtain ⟨f, hf⟩ := Block.mem_txHashes.1 hxh
  obtain ⟨hxb, hxg⟩ := change.new_anc hb hx
  have has : bc'.db.Has b := change.head ▸ sound'.head
  have hlook : bc'.db.lookup h = some f := by
    apply change.lookup_new hx hf
    intro y f' hy hf'
    obtain ⟨hyb, hyg⟩ := change.new_anc hb hy
    exact (sound'.entry_unique has hyb hxb hyg hxg hf' hf).2
  rw [hlook]
  constructor
  · intro heq
    obtain rfl := Option.some.inj heq
    exact ⟨x, hxb, hxg, hf⟩
  · rintro ⟨a, ha, hag, he⟩
    rw [(sound'.entry_unique has ha hxb hag hxg he hf).2]

theorem Adopted.entry_gone (sound : Sound T.toBlockTree bc) (hx : x ∈ os) (hxh : h ∈ x.txHashes)
    (hnew : ∀ y, y ∈ ns ∨ y = b → h ∉ y.txHashes) : ¬ Entry T.toBlockTree b h e := by
  rintro ⟨a, ha, hag, he⟩
  have hac := change.anc_common hnew ha he
  have hlt : c.number < x.number := change.old.height_lt hx
  have hle : a.number ≤ c.number := hac.height_le
  -- below the common block it would be on the old chain a second time
  obtain ⟨f, hf⟩ := Block.mem_txHashes.1 hxh
  have hxg : x ≠ T.genesis := by
    rintro rfl
    rw [T.genesis_number] at hlt
    omega
  obtain ⟨rfl, -⟩ := sound.entry_unique sound.head (change.old.anc_iff.2 (.inr hac))
    (change.old.anc_iff.2 (.inl hx)) hag hxg he hf
  omega

theorem Adopted.entry_kept (hold : ∀ x ∈ os, h ∉ x.txHashes)
    (hnew : ∀ y, y ∈ ns ∨ y = b → h ∉ y.txHashes) :
    Entry T.toBlockTree bc.currentBlock h e ↔ Entry T.toBlockTree b h e := by
  constructor
  · rintro ⟨a, ha, hag, he⟩
    have hac := (change.old.anc_iff.1 ha).resolve_left fun haos =>
      hold a haos (Block.mem_txHashes.2 ⟨e, he⟩)
    exact ⟨a, change.new.anc_iff.2 (.inr hac), hag, he⟩
  · rintro ⟨a, ha, hag, he⟩
    have hac := change.anc_common hnew ha he
    exact ⟨a, change.old.anc_iff.2 (.inr hac), hag, he⟩

end

theorem Indexed.adopted (indexed : Indexed T.toBlockTree bc) (sound : Sound T.toBlockTree bc)
    (sound' : Sound T.toBlockTree bc') (hb : b ≠ T.genesis)
    (change : Adopted T.toBlockTree bc bc' b os ns c) : Indexed T.toBlockTree bc' := by
  rw [indexed_iff] at indexed ⊢
  rw [change.head]
  intro h e
  by_cases hnew : ∃ x, (x ∈ ns ∨ x = b) ∧ h ∈ x.txHashes
  · obtain ⟨x, hx, hxh⟩ := hnew
    exact change.entry_new sound' hb hx hxh
  have hnew : ∀ y, y ∈ ns ∨ y = b → h ∉ y.txHashes := fun y hy hh => hnew ⟨y, hy, hh⟩
  by_cases hold : ∃ x ∈ os, h ∈ x.txHashes
  · obtain ⟨x, hx, hxh⟩ := hold
    rw [change.lookup_gone hx hxh hnew]
    exact iff_of_false (by simp) (change.entry_gone sound hx hxh hnew)
  · have hold : ∀ x ∈ os, h ∉ x.txHashes := fun x hx hh => hold ⟨x, hx, hh⟩
    rw [change.lookup_kept hold hnew, indexed]
    exact change.entry_kept hold hnew

theorem Indexed.step (indexed : Indexed T.toBlockTree bc) (sound : Sound T.toBlockTree bc)
    (wrote : Wrote T.toBlockTree bc b coin bc') : Indexed T.toBlockTree bc' := by
  have sound' := sound.step wrote
  cases wrote with
  | refused => exact indexed
  | side _ _ _ head _ lookup =>
    intro h e
    rw [lookup, head]
    exact indexed h e
  | adopted recorded _ _ change =>
    exact indexed.adopted sound sound' (BlockTree.ne_genesis recorded.parent) change

end Step

/-- After each call the lookup entries are exactly the positions of the transactions in canonical
blocks above the genesis block. -/
theorem lookup_follows_chain (T : ExecutedTree) (archive : Bool) (calls : List T.toBlockTree.Call) :
    Runs.Always (T.write archive) (Indexed T.toBlockTree) (BlockChain.commit T.genesis) calls := by
  have keeps : ∀ bc call bc', Sound T.toBlockTree bc ∧ Indexed T.toBlockTree bc →
      T.write archive bc call = some bc' →
      Sound T.toBlockTree bc' ∧ Indexed T.toBlockTree bc' := by
    rintro bc call bc' ⟨sound, indexed⟩ h
    have wrote := write_cases sound h
    exact ⟨sound.step wrote, indexed.step sound wrote⟩
  apply Runs.always_of_invariant keeps _ ⟨sound_commit T.toBlockTree, indexed_commit T.toBlockTree⟩
  rintro bc ⟨-, indexed⟩
  exact indexed

section Sample

/-- A transaction of the genesis block. -/
def installTx : Transaction := ⟨10, 7, 0⟩

/-- The first transaction. -/
def firstTx : Transaction := ⟨11, 8, 0⟩

/-- The second transaction. -/
def secondTx : Transaction := ⟨12, 9, 0⟩

/-- The genesis block with a transaction. -/
def swapGenesis : Block := .sample 1 0 0 1 [installTx]

/-- A block with both. -/
def lightBlock : Block := .sample 2 1 1 1 [firstTx, secondTx]

/-- A heavier block with both in the other order. -/
def heavyBlock : Block := .sample 3 1 1 5 [secondTx, firstTx]

/-- The three blocks. -/
def swapBlocks : List Block := [swapGenesis, lightBlock, heavyBlock]

/-- The nonces after the genesis block. -/
def swapNonces : Nonces := fun a => if a = installTx.sender then 1 else 0

/-- Their tree, in which all are executed. -/
def swapTree : ExecutedTree where
  blocks := { b | b ∈ swapBlocks }
  genesis := swapGenesis
  genesis_mem := show _ ∈ swapBlocks by decide
  genesis_number := rfl
  hash_inj := show ∀ a ∈ swapBlocks, ∀ b ∈ swapBlocks, a.hash = b.hash → a = b by decide
  nonces b := if b.number = 0 then swapNonces else (process swapNonces b.transactions).getD swapNonces
  executed := by
    rintro b p ⟨hb, hp, -, hnum⟩
    have checked : ∀ b ∈ swapBlocks, ∀ p ∈ swapBlocks, b.number = p.number + 1 →
        p.number = 0 ∧ (process swapNonces b.transactions).isSome := by decide
    obtain ⟨hzero, hsome⟩ := checked b hb p hp hnum
    obtain ⟨nonces, hn⟩ := Option.isSome_iff_exists.1 hsome
    rw [if_pos hzero, if_neg (by omega), hn]
    rfl
  tx_inj := show ∀ a ∈ swapBlocks, ∀ b ∈ swapBlocks, ∀ t ∈ a.transactions,
    ∀ u ∈ b.transactions, t.hash = u.hash → t = u by decide

/-- Both are written. -/
def swapCalls : List swapTree.toBlockTree.Call :=
  [⟨lightBlock, show _ ∈ swapBlocks by decide, false⟩,
    ⟨heavyBlock, show _ ∈ swapBlocks by decide, false⟩]

theorem lookup_follows_chain_swap : Runs.Always (swapTree.write false) (Indexed swapTree.toBlockTree)
        (BlockChain.commit swapGenesis) swapCalls ∧
      (Runs.run (swapTree.write false) (BlockChain.commit swapGenesis) swapCalls).map
        (fun bc => bc.db.lookup firstTx.hash) = some (some ⟨heavyBlock.hash, 1, 1⟩) :=
  ⟨lookup_follows_chain swapTree false swapCalls, by decide⟩

/-- The genesis block stays on the head's chain, and its transaction has no entry. -/
theorem genesis_transaction_unindexed :
    ∃ bc, Runs.run (swapTree.write false) (BlockChain.commit swapGenesis) swapCalls = some bc ∧
      installTx ∈ swapGenesis.transactions ∧ bc.db.lookup installTx.hash = none ∧
      ¬ ∀ h, (bc.db.lookup h).isSome ↔
        ∃ a, swapTree.forest.Anc a bc.currentBlock ∧ h ∈ a.txHashes := by
  refine ⟨_, rfl, by decide, by decide, ?_⟩
  intro claimed
  have anc : swapTree.forest.Anc swapGenesis heavyBlock :=
    .of_parent ⟨show _ ∈ swapBlocks by decide, show _ ∈ swapBlocks by decide, rfl, rfl⟩
  have entry := (claimed installTx.hash).2 ⟨swapGenesis, anc, by decide⟩
  exact absurd entry (by decide)

end Sample

end JuChain
