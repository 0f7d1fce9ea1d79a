import JuChain.Engine.Agreement
import JuChain.State.Logs
import JuChain.Types.Transaction

/-!
# Receipts of fast synchronisation

A node that fetches receipts gets the consensus fields, and `SetReceiptsData` computes the others.
They are those of `Process` but for the contract address of a transaction that points to the shared
zero address.
-/

namespace JuChain.Engine

open State List Function Option
open JuChain.Pool (Ref)

/-- A transaction and the pointer to its recipient. -/
structure PointedTx where
  tx : Transaction
  pointer : Option (Ref 160)
  leads : tx.recipient = Types.deref pointer

namespace PointedTx

variable (t : PointedTx)

/-- `tx.To`. -/
def recipient : Option Address :=
  if t.pointer = none ∨ t.pointer = some .empty then none else Types.deref t.pointer

/-- The address that a creation gives. -/
def created (codec : Codec) : Address := codec.createAddress (t.tx.sender.getD 0) t.tx.nonce

end PointedTx

/-- The receipt as it arrives from the network. -/
def ReceiptContent.receipt (c : ReceiptContent) : Receipt where
  postState := c.postState
  failed := c.failed
  cumulativeGasUsed := c.cumulativeGasUsed
  bloom := c.bloom
  logs := c.logs.map fun l => { address := l.1, topics := l.2.1, data := l.2.2 }
  txHash := 0
  contractAddress := none
  gasUsed := 0

/-- The receipt as it is stored: without a contract its address is zero. -/
def Receipt.stored (r : Receipt) : Receipt :=
  { r with contractAddress := some (r.contractAddress.getD 0) }

namespace Codec

variable (codec : Codec) (block : Hash) (number : ℕ)

/-- The loop body of `SetReceiptsData` for transaction `j`, `before` being the cumulative gas so
far. -/
def setReceipt (j : ℕ) (before : UInt64) (logIndex : ℕ) (t : PointedTx) (r : Receipt) : Receipt :=
  { r with
    txHash := t.tx.hash
    contractAddress := if t.recipient = none then some (t.created codec) else r.contractAddress
    gasUsed := if j = 0 then r.cumulativeGasUsed else r.cumulativeGasUsed - before
    logs := r.logs.mapIdx fun k l =>
      { l with
        blockNumber := number, blockHash := block, txHash := t.tx.hash, txIndex := j,
        index := logIndex + k } }

/-- The loop of `SetReceiptsData`. -/
def setReceiptsFrom : ℕ → UInt64 → ℕ → List (PointedTx × Receipt) → List Receipt
  | _, _, _, [] => []
  | j, before, logIndex, (t, r) :: rest =>
    codec.setReceipt block number j before logIndex t r ::
      setReceiptsFrom (j + 1) r.cumulativeGasUsed (logIndex + r.logs.length) rest

def setReceiptsData (txs : List PointedTx) (receipts : List Receipt) : Except String (List Receipt) :=
  if txs.length ≠ receipts.length then .error "transaction and receipt count mismatch"
  else .ok (codec.setReceiptsFrom block number 0 0 0 (txs.zip receipts))

end Codec

section Execution

variable {rules : Rules} {block : Hash} {header : Header} {i : ℕ} {ls : List Log}

/-- A transaction to the shared zero address would have to create it. -/
def Classified (codec : Codec) (t : PointedTx) : Prop := t.pointer = some .empty → t.created codec = 0

theorem processTransaction_eq_ok (numbers : rules.evm.NumbersLogs) {x y : Executed}
    {tx : Transaction} (fresh : x.state.logs tx.hash = [])
    (ran : rules.processTransaction block header i x tx = some (.ok y)) :
    ∃ receipt ls, y.receipts = x.receipts ++ [receipt] ∧ (∀ l ∈ ls, l.blockNumber = header.number) ∧
      receipt.logs = (x.state.prepare tx.hash block i).place ls ∧
      y.state.logs = Function.update x.state.logs tx.hash receipt.logs ∧
      y.state.logSize = x.state.logSize + ls.length ∧ y.usedGas = x.usedGas + receipt.gasUsed ∧
      receipt.cumulativeGasUsed = y.usedGas ∧ receipt.txHash = tx.hash ∧
      receipt.contractAddress = if tx.recipient = none then
        some (rules.codec.createAddress (tx.sender.getD 0) tx.nonce) else none := by
  obtain ⟨r, applied, mapped⟩ := map_eq_some_iff.1 ran
  cases hresult : r.result with
  | error e => simp [hresult, Except.map] at mapped
  | ok value =>
    obtain ⟨receipt, used⟩ := value
    simp only [hresult, Except.map, Except.ok.injEq] at mapped
    obtain rfl := mapped
    obtain ⟨msg, m, failed, hmsg, hm, hok, hused, hreceipt, hstate, -⟩ :=
      applyTransaction_eq_ok applied hresult
    obtain ⟨ls, emits, numbered⟩ := Message.emits_transitionDb numbers hm hok
    simp only [StateDB.Emits, StateDB.logging, Prod.mk.injEq] at emits
    have logs : receipt.logs = (x.state.prepare tx.hash block i).place ls := by
      rw [hreceipt]
      show m.state.finalise.logs tx.hash = _
      rw [emits.1]
      show update x.state.logs tx.hash (x.state.logs tx.hash ++ _) tx.hash = _
      rw [update_self, fresh, nil_append]
    refine ⟨receipt, ls, rfl, numbered, logs, ?_, ?_, hused, ?_, ?_, ?_⟩
    · rw [hstate, emits.1, logs]
      show update x.state.logs tx.hash (x.state.logs tx.hash ++ _) = _
      rw [fresh, nil_append]
    · rw [hstate, emits.2.1]
      rfl
    · rw [hreceipt]
      rfl
    · rw [hreceipt]
      rfl
    · rw [hreceipt]
      unfold Transaction.asMessage at hmsg
      cases hsender : tx.sender with
      | none => simp [hsender] at hmsg
      | some sender =>
        simp only [hsender, Except.ok.injEq] at hmsg
        subst hmsg
        simp [Rules.receipt, isNone_iff_eq_none]

theorem mapIdx_content_place {s : StateDB} {number : ℕ} (numbered : ∀ l ∈ ls, l.blockNumber = number) :
    (((s.place ls).map Log.content).map fun l =>
        ({ address := l.1, topics := l.2.1, data := l.2.2 } : Log)).mapIdx (fun k l =>
      { l with
        blockNumber := number, blockHash := s.bhash, txHash := s.thash, txIndex := s.txIndex,
        index := s.logSize + k }) = s.place ls := by
  refine ext_getElem (by simp [StateDB.place]) fun k hk hk' => ?_
  have here := numbered _ (getElem_mem (by simpa [StateDB.place] using hk'))
  simp [StateDB.place, Log.content, ← here]

theorem created_eq_iff (codec : Codec) (t : PointedTx) :
    (if t.recipient = none then some (t.created codec) else none).getD 0 =
      (if t.tx.recipient = none then some (t.created codec) else none).getD 0 ↔ Classified codec t := by
  rw [t.leads, PointedTx.recipient, Classified]
  cases t.pointer with
  | none => simp [Types.deref]
  | some p => cases p <;> simp [Types.deref]

theorem stored_setReceipt_iff {s : StateDB} {before : UInt64} {t : PointedTx}
    {receipt : Receipt} (first : i = 0 → before = 0)
    (numbered : ∀ l ∈ ls, l.blockNumber = header.number)
    (logs : receipt.logs = (s.prepare t.tx.hash block i).place ls)
    (used : receipt.cumulativeGasUsed = before + receipt.gasUsed) (hash : receipt.txHash = t.tx.hash)
    (address : receipt.contractAddress = if t.tx.recipient = none then
      some (rules.codec.createAddress (t.tx.sender.getD 0) t.tx.nonce) else none) :
    (rules.codec.setReceipt block header.number i before s.logSize t receipt.content.receipt).stored =
      receipt.stored ↔ Classified rules.codec t := by
  have gas : (if i = 0 then receipt.cumulativeGasUsed else receipt.cumulativeGasUsed - before) =
      receipt.gasUsed := by
    rw [used]
    split_ifs with start
    · rw [first start, UInt64.zero_add]
    · rw [UInt64.add_comm, UInt64.add_sub_cancel]
  have set := mapIdx_content_place (s := s.prepare t.tx.hash block i) numbered
  rw [← logs] at set
  have same : rules.codec.setReceipt block header.number i before s.logSize t receipt.content.receipt =
      { receipt with
        contractAddress := if t.recipient = none then some (t.created rules.codec) else none } :=
    Receipt.mk.injEq .. ▸ ⟨rfl, rfl, rfl, rfl, set, hash.symm, rfl, gas⟩
  rw [same, ← created_eq_iff, Receipt.stored, Receipt.stored, address]
  simp [PointedTx.created]

theorem processFrom_receipts (numbers : rules.evm.NumbersLogs) {ts : List PointedTx} {x y : Executed}
    (first : i = 0 → x.usedGas = 0) (distinct : (ts.map fun t => t.tx.hash).Nodup)
    (fresh : ∀ t ∈ ts, x.state.logs t.tx.hash = [])
    (ran : rules.processFrom block header i x (ts.map (·.tx)) = some (.ok y)) :
    ∃ rs, y.receipts = x.receipts ++ rs ∧ rs.length = ts.length ∧
      ((rules.codec.setReceiptsFrom block header.number i x.usedGas x.state.logSize
          (ts.zip (rs.map fun r => r.content.receipt))).map Receipt.stored = rs.map Receipt.stored ↔
        ∀ t ∈ ts, Classified rules.codec t) := by
  induction ts generalizing i x with
  | nil =>
    obtain rfl := Except.ok.inj (some.inj ran)
    exact ⟨[], (append_nil _).symm, rfl, by simp [Codec.setReceiptsFrom]⟩
  | cons t ts ih =>
    obtain ⟨result, once, rest⟩ := bind_eq_some_iff.1 ran
    cases result with
    | error e => exact nomatch rest
    | ok x' =>
      obtain ⟨receipt, ls, receipts, numbered, logs, logged, size, used, total, hash, address⟩ :=
        processTransaction_eq_ok numbers (fresh t mem_cons_self) once
      rw [map_cons, nodup_cons] at distinct
      have fresh' : ∀ u ∈ ts, x'.state.logs u.tx.hash = [] := by
        intro u hu
        have other : u.tx.hash ≠ t.tx.hash := fun same => distinct.1 (same ▸ mem_map_of_mem hu)
        rw [logged, update_of_ne other]
        exact fresh u (mem_cons_of_mem t hu)
      obtain ⟨rs, after, length, agree⟩ := ih (i := i + 1) (by omega) distinct.2 fresh' rest
      refine ⟨receipt :: rs, ?_, by rw [length_cons, length_cons, length], ?_⟩
      · rw [after, receipts, append_assoc, singleton_append]
      · have head : (rules.codec.setReceipt block header.number i x.usedGas x.state.logSize t
            receipt.content.receipt).stored = receipt.stored ↔ Classified rules.codec t :=
          stored_setReceipt_iff first numbered logs (total.trans used) hash address
        have length_logs : receipt.content.receipt.logs.length = ls.length := by
          simp [Receipt.content, ReceiptContent.receipt, logs, StateDB.place]
        have cumulative : receipt.content.receipt.cumulativeGasUsed = x'.usedGas := total
        rw [map_cons, zip_cons_cons, Codec.setReceiptsFrom, map_cons, map_cons,
          cons.injEq, forall_mem_cons, length_logs, ← size, cumulative, agree, head]

end Execution

/-- `SetReceiptsData` makes the receipts of `Process` exactly if no transaction that points to the
shared zero address is taken for a creation. -/
theorem fast_sync_receipts_iff {rules : Rules} (numbers : rules.evm.NumbersLogs) {b : FullBlock}
    {ts : List PointedTx} {trie : Address → Option StateObject} {x : Processed}
    (txs : b.transactions = ts.map (·.tx)) (distinct : (ts.map fun t => t.tx.hash).Nodup)
    (ran : rules.process b (StateDB.new trie) = some (.ok x)) :
    ∃ rs, rules.codec.setReceiptsData (rules.codec.headerHash b.header) b.header.number ts
        (x.receipts.map fun r => r.content.receipt) = .ok rs ∧
      (rs.map Receipt.stored = x.receipts.map Receipt.stored ↔ ∀ t ∈ ts, Classified rules.codec t) := by
  obtain ⟨result, loop, mapped⟩ := map_eq_some_iff.1 ran
  cases result with
  | error e => simp [Except.map] at mapped
  | ok y =>
    obtain rfl := Except.ok.inj mapped
    rw [txs] at loop
    obtain ⟨rs, receipts, length, agree⟩ :=
      processFrom_receipts numbers (fun _ => rfl) distinct (fun _ _ => rfl) loop
    obtain rfl : y.receipts = rs := receipts
    refine ⟨_, if_neg (not_not.2 ?_), agree⟩
    rw [length_map]
    exact length.symm

/-! ## Samples -/

/-- A call of the zero address. -/
def zeroCall (pointer : Ref 160) (zero : pointer.value = 0) : PointedTx where
  tx := { shortTransfer 0 with gas := 30000, recipient := some 0 }
  pointer := some pointer
  leads := congrArg some zero.symm

/-- A block with it. -/
def zeroCallBlock : FullBlock where
  header := { sampleGenesis with gasLimit := 100000 }
  uncles := []
  transactions := [(zeroCall .empty rfl).tx]

/-- A machine that logs every call. -/
def logOnly : Evm where
  call ctx msg _ _ gas :=
    ⟨[.addLog { address := msg.sender, topics := [7], data := [1, 2],
                blockNumber := ctx.blockNumber }], gas, none⟩
  gas_le _ _ _ _ _ := le_rfl
  unchanged _ _ _ _ _ h := by cases h

/-- Rules with this machine. -/
def loggingRules : Rules := { sampleRules with evm := logOnly }

/-- A call of the zero address by a transaction that was decoded. -/
def loggedCall (nonce : UInt64) : PointedTx where
  tx := { shortTransfer nonce with
    hash := BitVec.ofNat 256 nonce.toNat, gas := 30000, recipient := some 0 }
  pointer := some (.fresh 0)
  leads := rfl

/-- A block with two of them. -/
def loggedBlock : FullBlock :=
  { zeroCallBlock with transactions := [(loggedCall 0).tx, (loggedCall 1).tx] }

theorem fast_sync_receipts_fresh :
    ∃ x rs, loggingRules.process loggedBlock (StateDB.new fun _ => none) = some (.ok x) ∧
      x.receipts.map (fun r => r.logs.length) = [1, 1] ∧
      loggingRules.codec.setReceiptsData (loggingRules.codec.headerHash loggedBlock.header)
        loggedBlock.header.number [loggedCall 0, loggedCall 1]
          (x.receipts.map fun r => r.content.receipt) = .ok rs ∧
      rs.map Receipt.stored = x.receipts.map Receipt.stored := by
  have ran : ∃ x, loggingRules.process loggedBlock (StateDB.new fun _ => none) = some (.ok x) ∧
      x.receipts.map (fun r => r.logs.length) = [1, 1] := ⟨_, rfl, rfl⟩
  obtain ⟨x, ran, logged⟩ := ran
  have numbers : loggingRules.evm.NumbersLogs := by
    intro ctx msg objects refund gas l logged
    cases mem_singleton.1 logged
    rfl
  have txs : loggedBlock.transactions = [loggedCall 0, loggedCall 1].map (·.tx) := rfl
  obtain ⟨rs, set, agree⟩ := fast_sync_receipts_iff numbers txs (by decide) ran
  exact ⟨x, rs, ran, logged, set, agree.2 (by simp [Classified, loggedCall])⟩

/-- Account 1 calls the zero address; `SetReceiptsData` says that it has created a contract. -/
theorem fast_sync_receipts_shared :
    ∃ x rs, sampleRules.process zeroCallBlock (StateDB.new fun _ => none) = some (.ok x) ∧
      sampleRules.codec.setReceiptsData (sampleRules.codec.headerHash zeroCallBlock.header)
        zeroCallBlock.header.number [zeroCall .empty rfl]
          (x.receipts.map fun r => r.content.receipt) = .ok rs ∧
      x.receipts.map (·.contractAddress) = [none] ∧ rs.map (·.contractAddress) = [some 1] :=
  ⟨_, _, rfl, rfl, rfl, rfl⟩

end JuChain.Engine
