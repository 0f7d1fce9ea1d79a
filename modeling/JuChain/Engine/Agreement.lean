import JuChain.Engine.Execution

/-!
# The packager and the verifier agree

`Follows` says how far the verifier of a block is at some point of the packager: at the same state
and receipts up to the block hash, with at least as much gas.
-/

namespace JuChain.Engine

open State List Option

theorem logsBloom_stamp (codec : Codec) (block : Hash) (logs : List Log) :
    codec.logsBloom (logs.map (Log.stamp block)) = codec.logsBloom logs := by
  unfold Codec.logsBloom
  rw [foldl_map]
  rfl

theorem createBloom_stamp (codec : Codec) (block : Hash) (receipts : List Receipt) :
    codec.createBloom (receipts.map (Receipt.stamp block)) = codec.createBloom receipts := by
  unfold Codec.createBloom
  rw [foldl_map]
  simp only [Receipt.stamp, logsBloom_stamp]

theorem receiptsSha_stamp (codec : Codec) (block : Hash) (receipts : List Receipt) :
    codec.receiptsSha (receipts.map (Receipt.stamp block)) = codec.receiptsSha receipts := by
  have content (r : Receipt) : (r.stamp block).content = r.content := by
    have logs : (r.logs.map (Log.stamp block)).map Log.content = r.logs.map Log.content := by
      rw [List.map_map]
      rfl
    simp only [Receipt.content, Receipt.stamp, logs]
  unfold Codec.receiptsSha
  rw [List.map_map]
  simp only [Function.comp_def, content]

/-! ## One transaction -/

section Transaction

variable {rules : Rules} {author : Option Address} {header : Header} {tx : Transaction}
  {s : StateDB} {gp used used' : UInt64} {r : TxApplied} {receipt : Receipt}

section

variable (ran : rules.applyTransaction author gp s header tx used = some r)
  (ok : r.result = .ok (receipt, used'))

include ran ok

theorem applyTransaction_eq_ok : ∃ msg x failed, tx.asMessage = .ok msg ∧
      msg.transitionDb rules.evm (newEVMContext msg header author) gp s = some x ∧
      x.result = .ok (receipt.gasUsed, failed) ∧ used' = used + receipt.gasUsed ∧
      receipt = rules.receipt header tx msg x.state.finalise receipt.gasUsed failed used' ∧
      r.state = x.state.finalise ∧ r.gp = x.gp := by
  unfold Rules.applyTransaction at ran
  cases hmsg : tx.asMessage with
  | error e =>
    rw [hmsg] at ran
    obtain rfl := some.inj ran
    exact nomatch ok
  | ok msg =>
    simp only [hmsg] at ran
    obtain ⟨x, hx, rfl⟩ := map_eq_some_iff.1 ran
    cases hresult : x.result with
    | error e =>
      simp only [hresult] at ok
      exact nomatch ok
    | ok value =>
      obtain ⟨gas, failed⟩ := value
      simp only [hresult] at ok ⊢
      obtain ⟨rfl, rfl⟩ := Prod.mk.inj (Except.ok.inj ok)
      exact ⟨msg, x, failed, rfl, hx, hresult, rfl, rfl, rfl, rfl⟩

theorem applyTransaction_again (block : Hash) {gp' : UInt64} (hle : gp.toNat ≤ gp'.toNat) :
    ∃ gp₁ : UInt64,
      rules.applyTransaction author gp' (s.stamp block) header tx used =
        some ⟨r.state.stamp block, gp₁, .ok (receipt.stamp block, used')⟩ ∧
      gp₁.toNat + receipt.gasUsed.toNat = gp'.toNat := by
  obtain ⟨msg, x, failed, hmsg, hx, hresult, rfl, hreceipt, hstate, -⟩ :=
    applyTransaction_eq_ok ran ok
  obtain ⟨gp₁, hagain, hgp⟩ := Message.transitionDb_pool hx hresult hle
  refine ⟨gp₁, ?_, hgp⟩
  have stamped : rules.receipt header tx msg (x.state.stamp block).finalise receipt.gasUsed failed
      (used + receipt.gasUsed) = receipt.stamp block := by
    conv_rhs => rw [hreceipt]
    simp only [Rules.receipt, Receipt.stamp]
    rw [show (x.state.stamp block).finalise.logs tx.hash =
      (x.state.finalise.logs tx.hash).map (Log.stamp block) from rfl, logsBloom_stamp]
    rfl
  unfold Rules.applyTransaction
  simp only [hmsg, Message.transitionDb_stamp, hagain, map_some, Applied.stamp, hresult,
    stamped]
  rw [hstate]
  rfl

theorem applyTransaction_gp : r.gp.toNat + receipt.gasUsed.toNat = gp.toNat := by
  obtain ⟨msg, x, failed, -, hx, hresult, -, -, -, hgp⟩ := applyTransaction_eq_ok ran ok
  obtain ⟨gp₁, hsame, hsum⟩ := Message.transitionDb_pool hx hresult le_rfl
  have pool : x.gp = gp₁ := congrArg Applied.gp (some.inj (hx.symm.trans hsame))
  rw [hgp, pool]
  exact hsum

theorem applyTransaction_backed (backed : s.Backed) : r.state.Backed := by
  obtain ⟨msg, x, failed, -, hx, hresult, -, -, hstate, -⟩ := applyTransaction_eq_ok ran ok
  rw [hstate]
  exact ((Message.grows_of_ok hx hresult).backed backed).finalise

end

/-- The transaction gets as far as buying its gas. -/
structure BuysGas (tx : Transaction) (gp : UInt64) (s : StateDB) (sender : Address) : Prop where
  signed : tx.sender = some sender
  nonce : tx.nonce = s.getNonce sender
  paid : tx.gas.toNat * tx.gasPrice ≤ s.getBalance sender
  room : tx.gas ≤ gp

theorem applyTransaction_rewinds (backed : s.Backed) {e : TxError}
    (ran : rules.applyTransaction author gp s header tx used = some r)
    (error : r.result = .error e) :
    s.Rewinds r.state ∧ ((∀ sender, ¬ BuysGas tx gp s sender) ∧ r.gp = gp ∨
      (∃ sender, BuysGas tx gp s sender) ∧ r.gp = gp - tx.gas) := by
  unfold Rules.applyTransaction Transaction.asMessage at ran
  cases hsender : tx.sender with
  | none =>
    simp only [hsender] at ran
    obtain rfl := some.inj ran
    exact ⟨.refl s, .inl ⟨fun sender buys => some_ne_none sender (buys.signed.symm.trans hsender), rfl⟩⟩
  | some sender =>
    simp only [hsender] at ran
    obtain ⟨x, hx, rfl⟩ := map_eq_some_iff.1 ran
    cases hresult : x.result with
    | error e =>
      obtain ⟨rewinds, pool⟩ := Message.transitionDb_rewinds backed hx hresult
      refine ⟨rewinds, pool.imp (fun refused => ⟨fun other buys => ?_, refused.2⟩) fun bought => ?_⟩
      · obtain rfl := some.inj (hsender.symm.trans buys.signed)
        exact nomatch refused.1.choose_spec.symm.trans (Message.preCheck_eq_ok_iff.2
          ⟨fun _ => buys.nonce, buys.paid, buys.room, rfl⟩)
      · obtain ⟨nonce, paid, room, rest⟩ := Message.preCheck_eq_ok_iff.1 bought
        exact ⟨⟨sender, hsender, nonce rfl, paid, room⟩, rest⟩
    | ok value =>
      simp only [hresult] at error
      exact nomatch error

theorem applyTransaction_isSome : (rules.applyTransaction author gp s header tx used).isSome := by
  unfold Rules.applyTransaction
  cases tx.asMessage with
  | error e => rfl
  | ok msg =>
    rw [isSome_map]
    exact Message.transitionDb_isSome

end Transaction

/-! ## The loop -/

section Loop

variable {rules : Rules} {block : Hash} {header : Header} {start : StateDB} {gp : UInt64}
  {w : Commits} {tx : Transaction}
variable {coinbase : Address} {txs : TxSet} {fuel : ℕ}

theorem processFrom_concat {i : ℕ} {x y : Executed} {txs : List Transaction}
    (h : rules.processFrom block header i x txs = some (.ok y)) (tx : Transaction) :
    rules.processFrom block header i x (txs ++ [tx]) =
      rules.processTransaction block header (i + txs.length) y tx := by
  induction txs generalizing i x with
  | nil =>
    obtain rfl := Except.ok.inj (some.inj h)
    show (rules.processTransaction block header i x tx).bind _ = _
    cases rules.processTransaction block header i x tx with
    | none => rfl
    | some result => cases result <;> rfl
  | cons first rest ih =>
    obtain ⟨result, hfirst, hrest⟩ := bind_eq_some_iff.1 h
    cases result with
    | error e => exact nomatch hrest
    | ok x' =>
      show (rules.processTransaction block header i x first).bind _ = _
      rw [hfirst]
      show rules.processFrom block header (i + 1) x' (rest ++ [tx]) = _
      rw [ih hrest, length_cons, Nat.add_right_comm, Nat.add_assoc]

/-- States that differ in the transaction the logs are noted for and, in the first one, the block
hash at most. -/
def Mirrors (block : Hash) (v s : StateDB) : Prop :=
  v.prepare 0 0 0 = (s.stamp block).prepare 0 0 0

theorem Mirrors.prepare {v s : StateDB} (h : Mirrors block v s) (thash : Hash) (i : ℕ) :
    v.prepare thash block i = (s.prepare thash 0 i).stamp block :=
  congrArg (StateDB.prepare · thash block i) h

/-- How far the verifier of the block is when the packager has committed `w` and has the pool
`gp`. -/
structure Follows (rules : Rules) (block : Hash) (header : Header) (start : StateDB) (w : Commits)
    (gp : UInt64) : Prop where
  backed : w.state.Backed
  count : w.tcount = w.txs.length
  executed : ∃ v gpv, rules.processFrom block header 0 ⟨start, header.gasLimit, 0, []⟩ w.txs =
      some (.ok ⟨v, gpv, w.gasUsed, w.receipts.map (Receipt.stamp block)⟩) ∧
    Mirrors block v w.state ∧ gp.toNat ≤ gpv.toNat ∧
    gpv.toNat + w.gasUsed.toNat = header.gasLimit.toNat

section

variable (follows : Follows rules block header start w gp) {r : TxApplied}
include follows

theorem Follows.relabel (thash : Hash) (i : ℕ) :
    Follows rules block header start { w with state := w.state.prepare thash 0 i } gp := by
  obtain ⟨v, gpv, ran, mirrors, hle, hsum⟩ := follows.executed
  exact ⟨follows.backed, follows.count, v, gpv, ran, mirrors, hle, hsum⟩

theorem Follows.failed {author : Option Address} {e : TxError}
    (ran : rules.applyTransaction author gp w.state header tx w.gasUsed = some r)
    (error : r.result = .error e) : Follows rules block header start
      { w with state := r.state.revertToSnapshot w.state.snapshot } r.gp := by
  obtain ⟨rewinds, pool⟩ := applyTransaction_rewinds follows.backed ran error
  have smaller : r.gp.toNat ≤ gp.toNat := by
    rcases pool with ⟨-, same⟩ | ⟨⟨sender, buys⟩, rest⟩
    · rw [same]
    · rw [rest, Word.toNat_sub (UInt64.le_iff_toNat_le.1 buys.room)]
      exact Nat.sub_le _ _
  obtain ⟨v, gpv, ran, mirrors, hle, hsum⟩ := follows.executed
  rw [rewinds.revert]
  exact ⟨follows.backed, follows.count, v, gpv, ran, mirrors, smaller.trans hle, hsum⟩

theorem Follows.succeeded {receipt : Receipt} {used : UInt64}
    (ran : rules.applyTransaction none gp (w.state.prepare tx.hash 0 w.tcount) header tx w.gasUsed =
      some r) (ok : r.result = .ok (receipt, used)) : Follows rules block header start
      { state := r.state
        gasUsed := used
        tcount := w.tcount + 1
        txs := w.txs ++ [tx]
        receipts := w.receipts ++ [receipt] } r.gp := by
  obtain ⟨v, gpv, before, mirrors, hle, hsum⟩ := follows.executed
  obtain ⟨gpv', again, hgpv'⟩ := applyTransaction_again ran ok block hle
  have hgp := applyTransaction_gp ran ok
  have hlimit := header.gasLimit.toNat_lt
  obtain ⟨-, -, -, -, -, -, rfl, -⟩ := applyTransaction_eq_ok ran ok
  have hused : (w.gasUsed + receipt.gasUsed).toNat = w.gasUsed.toNat + receipt.gasUsed.toNat :=
    Word.toNat_add (by omega)
  refine ⟨applyTransaction_backed ran ok (follows.relabel tx.hash w.tcount).backed, ?_,
    r.state.stamp block, gpv', ?_, rfl, by omega, ?_⟩
  · rw [follows.count, length_append, length_singleton]
  · rw [processFrom_concat before tx, Nat.zero_add, ← follows.count]
    unfold Rules.processTransaction
    rw [mirrors.prepare, again, map_append]
    rfl
  · rw [hused]
    omega

end

theorem Follows.commitLoop {h : Header} {x : Summary} {txs : TxSet} {w' : Commits}
    (follows : Follows rules block (h.complete x) start w gp)
    (ran : rules.commitLoop h h.coinbase fuel txs gp w = some w') :
    ∃ gp', Follows rules block (h.complete x) start w' gp' := by
  induction fuel generalizing txs gp w with
  | zero =>
    obtain rfl := some.inj ran
    exact ⟨gp, follows⟩
  | succ fuel ih =>
    unfold Rules.commitLoop at ran
    split_ifs at ran with short
    · obtain rfl := some.inj ran
      exact ⟨gp, follows⟩
    · cases hpeek : txs.peek with
      | none =>
        rw [hpeek] at ran
        obtain rfl := some.inj ran
        exact ⟨gp, follows⟩
      | some tx =>
        simp only [hpeek] at ran
        obtain ⟨⟨w₁, gp₁, err⟩, hcommit, hrest⟩ := bind_eq_some_iff.1 ran
        obtain ⟨r, hr, hcommitted⟩ := map_eq_some_iff.1 hcommit
        have prepared := follows.relabel tx.hash w.tcount
        cases hresult : r.result with
        | error e =>
          simp only [hresult] at hcommitted
          obtain ⟨rfl, rfl, rfl⟩ := hcommitted
          exact ih (prepared.failed hr hresult) hrest
        | ok value =>
          simp only [hresult] at hcommitted
          obtain ⟨rfl, rfl, rfl⟩ := hcommitted
          exact ih (follows.succeeded hr hresult) hrest

theorem commitLoop_isSome : (rules.commitLoop header coinbase fuel txs gp w).isSome := by
  induction fuel generalizing txs gp w with
  | zero => rfl
  | succ fuel ih =>
    unfold Rules.commitLoop
    split_ifs
    · rfl
    · cases txs.peek with
      | none => rfl
      | some tx =>
        obtain ⟨r, hr⟩ := isSome_iff_exists.1 (@applyTransaction_isSome rules (some coinbase)
          header tx (w.state.prepare tx.hash 0 w.tcount) gp w.gasUsed)
        dsimp only
        rw [Rules.commitTransaction, hr]
        exact ih

theorem next_size {tx : Transaction} (hpeek : txs.peek = some tx)
    (err : Option TxError) : (Rules.next txs err).size < txs.size := by
  have popped : txs.pop.size < txs.size := by
    unfold TxSet.pop
    cases hpop : Heap.pop TxSet.byPrice txs with
    | none =>
      rw [Heap.pop_eq_none_iff.1 hpop] at hpeek
      exact nomatch hpeek
    | some popped =>
      have perm := (Heap.pop_perm hpop).map fun account => account.2.length + 1
      show TxSet.size popped.2 < txs.size
      rw [TxSet.size, TxSet.size, ← perm.sum_nat, map_cons, sum_cons]
      omega
  have shifted : txs.shift.size < txs.size := by
    match txs with
    | [] => exact nomatch hpeek
    | (_, []) :: _ => exact popped
    | (_, later :: rest) :: others =>
      have perm := (@Heap.fixHead_perm _ TxSet.byPrice ((later, rest) :: others)).map
        fun account => account.2.length + 1
      show TxSet.size (Heap.fixHead TxSet.byPrice ((later, rest) :: others)) < _
      rw [TxSet.size, TxSet.size, perm.sum_nat, map_cons, map_cons, sum_cons,
        sum_cons]
      show rest.length + 1 + _ < rest.length + 1 + 1 + _
      omega
  unfold Rules.next
  split
  · exact popped
  · exact popped
  · exact shifted

theorem commitLoop_fuel (enough : txs.size ≤ fuel) :
    rules.commitLoop header coinbase (fuel + 1) txs gp w =
      rules.commitLoop header coinbase fuel txs gp w := by
  induction fuel generalizing txs gp w with
  | zero =>
    have none_left : txs.peek = none := by
      cases hpeek : txs.peek with
      | none => rfl
      | some tx =>
        have := next_size hpeek none
        omega
    unfold Rules.commitLoop
    rw [none_left]
    split_ifs <;> rfl
  | succ fuel ih =>
    unfold Rules.commitLoop
    split_ifs
    · rfl
    · cases hpeek : txs.peek with
      | none => rfl
      | some tx =>
        dsimp only
        congr 1
        funext ⟨w₁, gp₁, err⟩
        exact ih (Nat.le_of_lt_succ ((next_size hpeek err).trans_le enough))

/-- Rounds beyond the transactions change nothing. -/
theorem commitLoop_eq_commitTransactions (enough : txs.size ≤ fuel) :
    rules.commitLoop header coinbase fuel txs header.gasLimit w =
      rules.commitTransactions header coinbase txs w := by
  induction fuel, enough using Nat.le_induction with
  | base => rfl
  | succ fuel enough ih => rw [commitLoop_fuel enough, ih]

/-- A failed transaction leaves the block as it was, and the gas pool exactly if it has bought no
gas. -/
theorem commitTransaction_failed_iff {w' : Commits} {gp' : UInt64} {e : TxError}
    (backed : w.state.Backed)
    (failed : rules.commitTransaction header coinbase w gp tx = some (w', gp', some e)) :
    w' = w ∧ (gp' = gp ↔ tx.gas = 0 ∨ ∀ sender, ¬ BuysGas tx gp w.state sender) := by
  obtain ⟨r, ran, committed⟩ := map_eq_some_iff.1 failed
  cases hresult : r.result with
  | ok value =>
    simp only [hresult] at committed
    exact nomatch (Prod.mk.inj (Prod.mk.inj committed).2).2
  | error err =>
    simp only [hresult] at committed
    obtain ⟨rfl, rfl, -⟩ := committed
    obtain ⟨rewinds, pool⟩ := applyTransaction_rewinds backed ran hresult
    refine ⟨by rw [rewinds.revert], ?_⟩
    rcases pool with ⟨refused, same⟩ | ⟨⟨sender, buys⟩, rest⟩
    · exact iff_of_true same (.inr refused)
    · have bought : gp - tx.gas = gp ↔ tx.gas = 0 := by
        have room := UInt64.le_iff_toNat_le.1 buys.room
        rw [← UInt64.toNat_inj, Word.toNat_sub room, ← UInt64.toNat_inj, UInt64.toNat_zero]
        omega
      rw [rest, bought]
      exact (or_iff_left fun none => none sender buys).symm

end Loop

/-! ## `Finalize` -/

theorem prepare_addBalance (s : StateDB) (thash bhash : Hash) (i : ℕ) (a : Address) (amount : ℤ) :
    (s.prepare thash bhash i).addBalance a amount = (s.addBalance a amount).prepare thash bhash i := by
  have objects : (s.prepare thash bhash i).objects = s.objects := rfl
  unfold StateDB.addBalance StateDB.withObject StateDB.getOrNew StateDB.createObject
  rw [objects]
  cases s.objects a with
  | none | some o =>
    unfold StateDB.objectAddBalance StateDB.touch
    dsimp only
    split_ifs <;> rfl

theorem accumulateRewards_comm {f : StateDB → StateDB}
    (hf : ∀ s a amount, (f s).addBalance a amount = f (s.addBalance a amount)) (s : StateDB)
    (header : Header) (uncles : List Header) :
    accumulateRewards (f s) header uncles = f (accumulateRewards s header uncles) := by
  have loop (reward : ℤ) : rewardUncles header.number (f s) reward uncles =
      (f (rewardUncles header.number s reward uncles).1,
        (rewardUncles header.number s reward uncles).2) := by
    induction uncles generalizing s reward with
    | nil => rfl
    | cons u rest ih => rw [rewardUncles, rewardUncles, hf, ih]
  unfold accumulateRewards
  rw [loop]
  exact hf _ _ _

theorem Mirrors.finalize {rules : Rules} {block : Hash} {v s : StateDB} (h : Mirrors block v s)
    (header : Header) (uncles : List Header) :
    (rules.finalize v header uncles).2 = (rules.finalize s header uncles).2 := by
  have unlabelled (t : StateDB) : accumulateRewards (t.prepare 0 0 0) header uncles =
      (accumulateRewards t header uncles).prepare 0 0 0 :=
    accumulateRewards_comm (f := fun t => t.prepare 0 0 0)
      (fun t a amount => prepare_addBalance t 0 0 0 a amount) t header uncles
  have stamped : accumulateRewards (s.stamp block) header uncles =
      (accumulateRewards s header uncles).stamp block :=
    accumulateRewards_comm (fun t a amount => (StateDB.unseen_stamp block).addBalance t a amount) s
      header uncles
  have same : (accumulateRewards v header uncles).prepare 0 0 0 =
      ((accumulateRewards s header uncles).stamp block).prepare 0 0 0 := by
    rw [← unlabelled v, ← stamped, ← unlabelled, h]
  have root := congrArg (fun t : StateDB => rules.codec.trieRoot t.finalise.trie) same
  exact root

theorem finalise_trie (s : StateDB) : s.finalise.finalise.trie = s.finalise.trie := by
  funext a
  have clean : ¬(0 < s.finalise.dirties a ∧ (s.finalise.objects a).isSome) :=
    fun dirty => Nat.lt_irrefl 0 dirty.1
  rw [StateDB.finalise]
  dsimp only
  rw [if_neg clean]

/-! ## The new block -/

section NewBlock

variable {rules : Rules} (chain : HeadedChain rules.codec.headerHash) (p : Packager) (now : Clock)
  (round : UInt64) (presidentId : GoString) (trie : Address → Option StateObject)
  (pending : List (Transaction × List Transaction))
  (possibleUncles : List (SideBlock chain.toNumberedChain))

/-- The transactions of the new block, what they add to the header, and the verifier after them. -/
structure Packaged (w : Commits) (x : Summary) (b : FullBlock) : Prop where
  header : b.header = packagedHeader chain p now round presidentId x
  uncles : b.uncles = packagedUncles chain possibleUncles
  transactions : b.transactions = w.txs
  gasUsed : x.gasUsed = w.gasUsed
  root : x.root = (rules.finalize w.state b.header b.uncles).2
  receiptHash : x.receiptHash = rules.codec.receiptsSha w.receipts
  bloom : x.bloom = rules.codec.createBloom w.receipts
  follows : ∃ gp, Follows rules (rules.codec.headerHash b.header) b.header (StateDB.new trie) w gp

theorem generateNewBlock_eq :
    ∃ w x b, rules.generateNewBlock chain p now round presidentId trie pending possibleUncles =
        some (b, w.receipts.map (Receipt.stamp (rules.codec.headerHash b.header))) ∧
      Packaged chain p now round presidentId trie possibleUncles w x b := by
  let parent := chain.currentBlock.header
  let header := newHeader p now round presidentId (rules.codec.headerHash parent) parent
  obtain ⟨w, hw⟩ := isSome_iff_exists.1 (@commitLoop_isSome rules header header.gasLimit
    ⟨StateDB.new trie, header.gasUsed, 0, [], []⟩ p.coinbase (TxSet.new pending)
    (TxSet.new pending).size)
  let uncles := packagedUncles chain possibleUncles
  let x : Summary :=
    { gasUsed := w.gasUsed
      uncleHash := if uncles.isEmpty then emptyUncleHash else rules.codec.calcUncleHash uncles
      root := (rules.finalize w.state header uncles).2
      txHash := rules.codec.deriveSha (w.txs.map rules.codec.encodeTransaction)
      receiptHash := rules.codec.receiptsSha w.receipts
      bloom := if w.receipts.isEmpty then 0 else rules.codec.createBloom w.receipts }
  have bloom : x.bloom = rules.codec.createBloom w.receipts := by
    show (if w.receipts.isEmpty then 0 else rules.codec.createBloom w.receipts) = _
    cases w.receipts <;> rfl
  refine ⟨w, x, ⟨⟨header.complete x, uncles⟩, w.txs⟩, ?_, rfl, rfl, rfl, rfl, rfl, rfl, bloom, ?_⟩
  · unfold Rules.generateNewBlock Rules.commitTransactions
    dsimp only
    rw [hw]
    rfl
  · -- At the start the verifier has executed nothing.
    refine Follows.commitLoop (h := header) (x := x) ?_ hw
    exact ⟨fun a h => h, rfl, StateDB.new trie, header.gasLimit, rfl, rfl, le_rfl, Nat.add_zero _⟩

/-- `Process` executes the block of `GenerateNewBlock` with the same receipts, bloom, gas and state
root, and `ValidateState` accepts it. -/
theorem packaged_block_validates : ∃ b receipts,
      rules.generateNewBlock chain p now round presidentId trie pending possibleUncles =
        some (b, receipts) ∧
      ∃ x, rules.process b (StateDB.new trie) = some (.ok x) ∧ x.receipts = receipts ∧
        rules.codec.createBloom x.receipts = b.header.bloom ∧ x.usedGas = b.header.gasUsed ∧
        (rules.codec.intermediateRoot x.state).2 = b.header.root ∧
        rules.validateState b x = .ok () := by
  obtain ⟨w, x, b, generated, made⟩ :=
    generateNewBlock_eq chain p now round presidentId trie pending possibleUncles
  obtain ⟨gp, -, -, v, gpv, ran, mirrors, -, -⟩ := made.follows
  have header : b.header.gasUsed = x.gasUsed ∧ b.header.bloom = x.bloom ∧
      b.header.receiptHash = x.receiptHash ∧ b.header.root = x.root := by
    rw [made.header]
    exact ⟨rfl, rfl, rfl, rfl⟩
  obtain ⟨gasUsed, bloom, receiptHash, root⟩ := header
  let receipts := w.receipts.map (Receipt.stamp (rules.codec.headerHash b.header))
  let y : Processed := ⟨(rules.finalize v b.header b.uncles).1, receipts,
    receipts.flatMap (·.logs), w.gasUsed⟩
  have processed : rules.process b (StateDB.new trie) = some (.ok y) := by
    unfold Rules.process
    rw [made.transactions, ran]
    rfl
  have sameBloom : rules.codec.createBloom y.receipts = b.header.bloom := by
    rw [bloom, made.bloom]
    exact createBloom_stamp _ _ _
  have sameGas : y.usedGas = b.header.gasUsed := by rw [gasUsed, made.gasUsed]
  have sameRoot : (rules.codec.intermediateRoot y.state).2 = b.header.root := by
    rw [root, made.root, ← mirrors.finalize]
    exact congrArg rules.codec.trieRoot (finalise_trie _)
  have sameReceipts : rules.codec.receiptsSha y.receipts = b.header.receiptHash := by
    rw [receiptHash, made.receiptHash]
    exact receiptsSha_stamp _ _ _
  refine ⟨b, receipts, generated, y, processed, rfl, sameBloom, sameGas, sameRoot, ?_⟩
  unfold Rules.validateState
  rw [if_neg (not_not.2 sameGas.symm), if_neg (not_not.2 sameBloom), if_neg (not_not.2 sameReceipts),
    if_neg (not_not.2 sameRoot.symm)]

/-- The new header passes exactly when the packager's clock is at most 15 seconds ahead of the
verifier's, its parent less than 15 seconds, and the parent's limit is not at one of the ends. -/
theorem packaged_header_accepted {verified : Clock} {grandparent : Header} {sealed : Bool}
    (passed : verifyHeader verified chain.currentBlock.header grandparent false sealed = .ok ())
    (verifier : Clock) (withSeal : Bool) : let parent := chain.currentBlock.header
    StepsFit parent.gasLimit.toNat parent.gasUsed.toNat ∧ ∃ b receipts,
        rules.generateNewBlock chain p now round presidentId trie pending possibleUncles =
          some (b, receipts) ∧ parent.time < b.header.time ∧
        b.header.difficulty = calcDifficulty (bigUint64 b.header.time) parent ∧
        b.header.gasUsed ≤ b.header.gasLimit ∧ minGasLimit ≤ b.header.gasLimit ∧
        b.header.gasLimit.toNat =
          gasLimitAfter p.targetGasLimit.toNat parent.gasLimit.toNat parent.gasUsed.toNat ∧
        (verifyHeader verifier b.header parent false withSeal = .ok () ↔
          InTime now verifier parent ∧
            LimitInRange p.targetGasLimit.toNat parent.gasLimit.toNat parent.gasUsed.toNat) := by
  intro parent
  have accepted := verifyHeader_eq_ok_iff.1 passed
  have checked : GasChecked parent := accepted.gasChecked
  have past : parent.time < 2 ^ 63 - 1 := by
    have hbound := verified.bound
    have htime : parent.time ≤ verified.unix + 15 := accepted.time
    omega
  obtain ⟨w, x, b, generated, made⟩ :=
    generateNewBlock_eq chain p now round presidentId trie pending possibleUncles
  obtain ⟨gp, -, -, v, gpv, -, -, -, hsum⟩ := made.follows
  have limit : b.header.gasLimit = calcGasLimit p.targetGasLimit parent := by
    rw [made.header]
    rfl
  have used : b.header.gasUsed = x.gasUsed := by
    rw [made.header]
    rfl
  have within : x.gasUsed ≤ calcGasLimit p.targetGasLimit parent := by
    rw [UInt64.le_iff_toNat_le, made.gasUsed, ← limit]
    omega
  have exact_limit := toNat_calcGasLimit checked p.targetGasLimit
  have time : b.header.time = timestamp now parent := by
    rw [made.header]
    rfl
  refine ⟨gasLimit_steps_fit checked, b, _, generated, ?_, ?_, ?_, ?_, ?_, ?_⟩
  · rw [time, timestamp_eq now past]
    omega
  · rw [made.header]
    rfl
  · rw [used, limit]
    exact within
  · rw [limit, UInt64.le_iff_toNat_le, exact_limit]
    exact (gasLimitAfter_lower _ _ checked.minimum).1
  · rw [limit, exact_limit]
  · rw [verifyHeader_eq_ok_iff, made.header]
    exact newHeader_acceptable_iff p now verifier round presidentId
      (rules.codec.headerHash parent) withSeal checked past within

end NewBlock

/-! ## Samples -/

/-- Rules with simple functions for all that is left open. -/
def sampleRules : Rules where
  codec :=
    { headerHash := sampleHash
      calcUncleHash := fun _ => 0
      encodeTransaction := fun _ => []
      encodeReceipt := fun _ => []
      deriveSha := fun _ => 0
      trieRoot := fun _ => 0
      createAddress := fun a _ => a
      bloomAddress := fun _ => 0
      bloomTopic := fun _ => 0 }
  evm := Message.transferOnly
  isByzantium := fun _ => true

/-- A transfer with too little gas. -/
def shortTransfer (nonce : UInt64) : Transaction where
  hash := 1
  sender := some 1
  nonce := nonce
  gasPrice := 0
  gas := 20000
  recipient := some 2
  value := 0
  data := []
  data_lt := Message.no_data_lt

/-- No transaction is committed yet. -/
def freshWork : Commits := ⟨StateDB.new fun _ => none, 0, 0, [], []⟩

/-- A header with room for three transfers. -/
def roomyHeader : Header := { sampleGenesis with gasLimit := 100000 }

/-- A transfer with enough gas. -/
def fullTransfer (nonce : UInt64) : Transaction := { shortTransfer nonce with gas := 30000 }

theorem commitLoop_two :
    sampleRules.commitLoop roomyHeader 7 5 [(fullTransfer 0, [fullTransfer 1, shortTransfer 9])]
        roomyHeader.gasLimit freshWork =
      sampleRules.commitTransactions roomyHeader 7
        [(fullTransfer 0, [fullTransfer 1, shortTransfer 9])] freshWork ∧
    (sampleRules.commitTransactions roomyHeader 7 [(fullTransfer 0, [fullTransfer 1, shortTransfer 9])]
      freshWork).map (fun w => w.txs.length) = some 2 :=
  ⟨commitLoop_eq_commitTransactions (by decide), rfl⟩

theorem missing_nonce_untouched :
    ∃ w gp, sampleRules.commitTransaction roomyHeader 7 freshWork 100000 (fullTransfer 0) = some
      (w, gp, none) ∧ ∃ w', sampleRules.commitTransaction roomyHeader 7 w gp (shortTransfer 5) =
        some (w', gp, some .nonceTooHigh) ∧ w' = w := by
  have first : ∃ w gp w',
    sampleRules.commitTransaction roomyHeader 7 freshWork 100000 (fullTransfer 0) =
      some (w, gp, none) ∧ w.state.Backed ∧ sampleRules.commitTransaction roomyHeader 7 w gp
        (shortTransfer 5) = some (w', gp, some .nonceTooHigh) := by
    have ran : sampleRules.applyTransaction (some 7) 100000 freshWork.state roomyHeader (fullTransfer 0)
      freshWork.gasUsed = some _ := rfl
    exact ⟨_, _, _, rfl, applyTransaction_backed ran rfl fun _ h => h, rfl⟩
  obtain ⟨w, gp, w', committed, backed, failed⟩ := first
  exact ⟨w, gp, committed, w', failed, (commitTransaction_failed_iff backed failed).1⟩

/-- The state is reverted, and 20000 of the 100000 units of gas in the pool are gone. -/
theorem failed_transaction_takes_gas :
    ∃ w, sampleRules.commitTransaction sampleGenesis 7 freshWork 100000 (shortTransfer 0) =
      some (w, 80000, some .outOfGas) :=
  ⟨_, rfl⟩

/-- A chain of which only the head is stored. -/
def headOnly (head : Header) (short : head.number + 1 < 2 ^ 64) :
    HeadedChain sampleRules.codec.headerHash where
  getBlock h n := if h = sampleHash head ∧ n = head.number then some ⟨head, []⟩ else none
  filed h := by
    split_ifs at h with hk
    obtain rfl := Option.some.inj h
    exact ⟨hk.1.symm, hk.2.symm⟩
  getBlockNumber _ := head.number
  numbered h := by
    split_ifs at h with hk
    exact hk.2.symm
  currentBlock := ⟨head, []⟩
  current := if_pos ⟨rfl, rfl⟩
  short := short

/-- The header of an empty block that is packaged on the head. -/
def emptyBlockHeader (p : Packager) (now : Clock) (head : Header)
    (short : head.number + 1 < 2 ^ 64) : Option Header :=
  (sampleRules.generateNewBlock (headOnly head short) p now 1 [] (fun _ => none) [] []).map (·.1.header)

theorem packaged_header_accepted_sample : ∃ b receipts,
      sampleRules.generateNewBlock (headOnly (childOf sampleGenesis 10) (by decide)) samplePackager
        ⟨20, by norm_num⟩ 1 [] (fun _ => none) [] [] = some (b, receipts) ∧
      verifyHeader ⟨20, by norm_num⟩ b.header (childOf sampleGenesis 10) false true = .ok () := by
  obtain ⟨-, b, receipts, generated, -, -, -, -, -, accepted⟩ :=
    @packaged_header_accepted sampleRules (headOnly (childOf sampleGenesis 10) (by decide))
      samplePackager
      ⟨20, by norm_num⟩ 1 [] (fun _ => none) [] [] ⟨20, by norm_num⟩ sampleGenesis true (by decide)
      ⟨20, by norm_num⟩ true
  exact ⟨b, receipts, generated, accepted.2 (by decide)⟩

/-- A header that uses all its gas. -/
def fullHeader : Header := { childOf sampleGenesis 10 with gasUsed := 5000 }

/-- A clock 16 seconds ahead makes a header from the future, and without a higher target the limit
of a full block at the minimum is raised by too much. -/
theorem packaged_header_refused :
    verifyHeader ⟨20, by norm_num⟩ (childOf sampleGenesis 10) sampleGenesis false true = .ok () ∧
      (emptyBlockHeader samplePackager ⟨36, by norm_num⟩ (childOf sampleGenesis 10) (by decide)).map
        (verifyHeader ⟨20, by norm_num⟩ · (childOf sampleGenesis 10) false true) =
          some (.error .futureBlock) ∧
      verifyHeader ⟨20, by norm_num⟩ fullHeader sampleGenesis false true = .ok () ∧
      (emptyBlockHeader ⟨7, 5000⟩ ⟨20, by norm_num⟩ fullHeader (by decide)).map
        (verifyHeader ⟨20, by norm_num⟩ · fullHeader false true) =
          some (.error (.invalidGasLimit 5004 5000 4)) := by
  decide

end JuChain.Engine
