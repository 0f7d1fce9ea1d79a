import JuChain.Engine.Selection
import JuChain.Lib.Heap
import JuChain.State.Stamp

/-!
# Packaging and verifying a block

`GenerateNewBlock` on the one side, `StateProcessor.Process` and `ValidateState` on the other.  The
hash functions, the trie root and the encodings are parameters (`Codec`); nothing is assumed of
them.
-/

namespace JuChain.Engine

open State

/-! ## Transactions and receipts -/

/-- `types.Transaction`, with the sender that `Sender` recovers from the signature, if it is
valid. -/
structure Transaction where
  hash : Hash
  sender : Option Address
  nonce : UInt64
  gasPrice : ℤ
  gas : UInt64
  recipient : Option Address
  value : ℤ
  data : Bytes
  data_lt : data.length < 2 ^ 63
  deriving DecidableEq

/-- `Transaction.AsMessage`. -/
def Transaction.asMessage (tx : Transaction) : Except TxError Message :=
  match tx.sender with
  | none => .error .invalidSender
  | some sender => .ok
    { sender := sender
      recipient := tx.recipient
      nonce := tx.nonce
      value := tx.value
      gas := tx.gas
      gasPrice := tx.gasPrice
      data := tx.data
      checkNonce := true
      data_lt := tx.data_lt }

/-- `types.Receipt`.  `PostState` is empty from the Byzantium fork on. -/
structure Receipt where
  postState : Option Hash
  failed : Bool
  cumulativeGasUsed : UInt64
  bloom : Bloom
  logs : List Log
  txHash : Hash
  contractAddress : Option Address
  gasUsed : UInt64
  deriving DecidableEq

/-- The logs get the hash of the block. -/
def Receipt.stamp (block : Hash) (r : Receipt) : Receipt :=
  { r with logs := r.logs.map (Log.stamp block) }

/-- What of a log enters the consensus encoding: not where it was emitted. -/
def Log.content (l : Log) : Address × List Hash × Bytes := (l.address, l.topics, l.data)

/-- What the receipt trie holds of a receipt. -/
structure ReceiptContent where
  postState : Option Hash
  failed : Bool
  cumulativeGasUsed : UInt64
  bloom : Bloom
  logs : List (Address × List Hash × Bytes)

/-- What is encoded of a receipt. -/
def Receipt.content (r : Receipt) : ReceiptContent :=
  ⟨r.postState, r.failed, r.cumulativeGasUsed, r.bloom, r.logs.map Log.content⟩

/-- The functions that are computed by hashing and encoding. -/
structure Codec where
  headerHash : Header → Hash
  calcUncleHash : List Header → Hash
  encodeTransaction : Transaction → Bytes
  encodeReceipt : ReceiptContent → Bytes
  /-- `DeriveSha` of the encoded items; `EmptyRootHash` is that of no items. -/
  deriveSha : List Bytes → Hash
  trieRoot : (Address → Option StateObject) → Hash
  createAddress : Address → UInt64 → Address
  bloomAddress : Address → Bloom
  bloomTopic : Hash → Bloom

namespace Codec

variable (codec : Codec)

def logsBloom (logs : List Log) : Bloom :=
  logs.foldl (fun bin l => l.topics.foldl (fun bin t => bin ||| codec.bloomTopic t)
    (bin ||| codec.bloomAddress l.address)) 0

def createBloom (receipts : List Receipt) : Bloom :=
  receipts.foldl (fun bin r => bin ||| codec.logsBloom r.logs) 0

/-- `DeriveSha` of receipts. -/
def receiptsSha (receipts : List Receipt) : Hash :=
  codec.deriveSha (receipts.map fun r => codec.encodeReceipt r.content)

def intermediateRoot (s : StateDB) : StateDB × Hash := (s.finalise, codec.trieRoot s.finalise.trie)

end Codec

/-! ## `ApplyTransaction` -/

/-- What processing depends on. -/
structure Rules where
  codec : Codec
  evm : Evm
  /-- `config.IsByzantium` at a block number. -/
  isByzantium : ℕ → Bool

def newEVMContext (msg : Message) (header : Header) (author : Option Address) : Context where
  origin := msg.sender
  coinbase := author.getD header.coinbase
  parentHash := header.parentHash
  blockNumber := header.number
  time := header.time
  difficulty := header.difficulty
  gasLimit := header.gasLimit
  gasPrice := msg.gasPrice

/-- What `ApplyTransaction` leaves and returns. -/
structure TxApplied where
  state : StateDB
  gp : UInt64
  result : Except TxError (Receipt × UInt64)

namespace Rules

variable (rules : Rules)

/-- The receipt that `ApplyTransaction` makes. -/
def receipt (header : Header) (tx : Transaction) (msg : Message) (s : StateDB) (gas : UInt64)
    (failed : Bool) (usedGas : UInt64) : Receipt where
  postState := if rules.isByzantium header.number then none else some (rules.codec.trieRoot s.trie)
  failed := failed
  cumulativeGasUsed := usedGas
  bloom := 0 ||| rules.codec.logsBloom (s.logs tx.hash)
  logs := s.logs tx.hash
  txHash := tx.hash
  contractAddress :=
    if msg.recipient.isNone then some (rules.codec.createAddress msg.sender tx.nonce) else none
  gasUsed := gas

/-- `ApplyTransaction`; `none` stands for the panic of the gas pool. -/
def applyTransaction (author : Option Address) (gp : UInt64) (s : StateDB) (header : Header)
    (tx : Transaction) (usedGas : UInt64) : Option TxApplied :=
  match tx.asMessage with
  | .error e => some ⟨s, gp, .error e⟩
  | .ok msg =>
    (msg.transitionDb rules.evm (newEVMContext msg header author) gp s).map fun r =>
      match r.result with
      | .error e => ⟨r.state, r.gp, .error e⟩
      | .ok (gas, failed) =>
        let s := r.state.finalise
        ⟨s, r.gp, .ok (rules.receipt header tx msg s gas failed (usedGas + gas), usedGas + gas)⟩

end Rules

/-! ## Verifying -/

/-- The state of the loop of `Process`. -/
structure Executed where
  state : StateDB
  gp : UInt64
  usedGas : UInt64
  receipts : List Receipt

/-- A block with its transactions. -/
structure FullBlock extends Block where
  transactions : List Transaction
  deriving DecidableEq

/-- What `Process` returns. -/
structure Processed where
  state : StateDB
  receipts : List Receipt
  logs : List Log
  usedGas : UInt64

/-- The errors of `ValidateState`: the value of the block and the computed one. -/
inductive StateError
  | gasUsed (remote localValue : UInt64)
  | bloom (remote localValue : Bloom)
  | receiptHash (remote localValue : Hash)
  | root (remote localValue : Hash)
  deriving DecidableEq

namespace Rules

variable (rules : Rules)

/-- One transaction of a block. -/
def processTransaction (block : Hash) (header : Header) (i : ℕ) (x : Executed) (tx : Transaction) :
    Option (Except TxError Executed) :=
  (rules.applyTransaction none x.gp (x.state.prepare tx.hash block i) header tx x.usedGas).map
    fun r => r.result.map fun (receipt, usedGas) =>
      ⟨r.state, r.gp, usedGas, x.receipts ++ [receipt]⟩

/-- The loop of `Process`. -/
def processFrom (block : Hash) (header : Header) :
    ℕ → Executed → List Transaction → Option (Except TxError Executed)
  | _, x, [] => some (.ok x)
  | i, x, tx :: rest =>
    (rules.processTransaction block header i x tx).bind fun
      | .error e => some (.error e)
      | .ok x => processFrom block header (i + 1) x rest

/-- What `Finalize` does to the state, and the root it writes into the header. -/
def finalize (s : StateDB) (header : Header) (uncles : List Header) : StateDB × Hash :=
  rules.codec.intermediateRoot (accumulateRewards s header uncles)

/-- `StateProcessor.Process`. -/
def process (b : FullBlock) (s : StateDB) : Option (Except TxError Processed) :=
  (rules.processFrom (rules.codec.headerHash b.header) b.header 0 ⟨s, b.header.gasLimit, 0, []⟩
    b.transactions).map fun x => x.map fun x =>
      ⟨(rules.finalize x.state b.header b.uncles).1, x.receipts, x.receipts.flatMap (·.logs),
        x.usedGas⟩

def validateState (b : FullBlock) (x : Processed) : Except StateError Unit :=
  if b.header.gasUsed ≠ x.usedGas then .error (.gasUsed b.header.gasUsed x.usedGas)
  else if rules.codec.createBloom x.receipts ≠ b.header.bloom then
    .error (.bloom b.header.bloom (rules.codec.createBloom x.receipts))
  else if rules.codec.receiptsSha x.receipts ≠ b.header.receiptHash then
    .error (.receiptHash b.header.receiptHash (rules.codec.receiptsSha x.receipts))
  else if b.header.root ≠ (rules.codec.intermediateRoot x.state).2 then
    .error (.root b.header.root (rules.codec.intermediateRoot x.state).2)
  else .ok ()

end Rules

/-! ## Packaging -/

/-- `TransactionsByPriceAndNonce`: the next transaction of each account and the later ones, as a
heap by price. -/
abbrev TxSet := List (Transaction × List Transaction)

namespace TxSet

/-- `TxByPrice.Less`. -/
def byPrice (a b : Transaction × List Transaction) : Bool := b.1.gasPrice < a.1.gasPrice

/-- `NewTransactionsByPriceAndNonce`, with the map of accounts as a list. -/
def new (pending : List (Transaction × List Transaction)) : TxSet := Heap.init byPrice pending

def peek (txs : TxSet) : Option Transaction := txs.head?.map (·.1)

def pop (txs : TxSet) : TxSet := ((Heap.pop byPrice txs).map (·.2)).getD []

def shift (txs : TxSet) : TxSet :=
  match txs with
  | (_, tx :: later) :: rest => Heap.fixHead byPrice ((tx, later) :: rest)
  | _ => txs.pop

/-- The transactions that are left. -/
def size (txs : TxSet) : ℕ := (txs.map fun account => account.2.length + 1).sum

end TxSet

/-- The part of `Work` that `commitTransactions` changes. -/
structure Commits where
  state : StateDB
  gasUsed : UInt64
  tcount : ℕ
  txs : List Transaction
  receipts : List Receipt

namespace Rules

variable (rules : Rules)

/-- `Work.commitTransaction`. -/
def commitTransaction (header : Header) (coinbase : Address) (w : Commits) (gp : UInt64)
    (tx : Transaction) : Option (Commits × UInt64 × Option TxError) :=
  (rules.applyTransaction (some coinbase) gp w.state header tx w.gasUsed).map fun r =>
    match r.result with
    | .error e =>
      ({ w with state := r.state.revertToSnapshot w.state.snapshot }, r.gp, some e)
    | .ok (receipt, usedGas) =>
      ({ w with
          state := r.state
          gasUsed := usedGas
          txs := w.txs ++ [tx]
          receipts := w.receipts ++ [receipt] }, r.gp, none)

/-- How the loop goes on after a transaction. -/
def next (txs : TxSet) : Option TxError → TxSet
  -- The rest of the account is given up when the gas is short or an earlier nonce is missing.
  | some .gasLimitReached | some .nonceTooHigh => txs.pop
  | _ => txs.shift

/-- The loop of `commitTransactions`, for as many rounds as transactions. -/
def commitLoop (header : Header) (coinbase : Address) :
    ℕ → TxSet → UInt64 → Commits → Option Commits
  | 0, _, _, w => some w
  | fuel + 1, txs, gp, w =>
    if gp < txGas then some w
    else match txs.peek with
      | none => some w
      | some tx =>
        (rules.commitTransaction header coinbase
          { w with state := w.state.prepare tx.hash 0 w.tcount } gp tx).bind fun (w, gp, err) =>
            commitLoop header coinbase fuel (next txs err) gp
              (if err = none then { w with tcount := w.tcount + 1 } else w)

/-- `Work.commitTransactions`. -/
def commitTransactions (header : Header) (coinbase : Address) (txs : TxSet) (w : Commits) :
    Option Commits :=
  rules.commitLoop header coinbase txs.size txs header.gasLimit w

/-- `types.NewBlock`. -/
def newBlock (header : Header) (txs : List Transaction) (uncles : List Header)
    (receipts : List Receipt) : FullBlock where
  header :=
    { header with
      txHash := rules.codec.deriveSha (txs.map rules.codec.encodeTransaction)
      receiptHash := rules.codec.receiptsSha receipts
      bloom := if receipts.isEmpty then header.bloom else rules.codec.createBloom receipts
      uncleHash := if uncles.isEmpty then emptyUncleHash else rules.codec.calcUncleHash uncles }
  uncles := uncles
  transactions := txs

/-- `GenerateNewBlock` on the current head: the block, and the receipts with its hash. -/
def generateNewBlock (chain : HeadedChain rules.codec.headerHash) (p : Packager) (now : Clock)
    (round : UInt64) (presidentId : GoString) (trie : Address → Option StateObject)
    (pending : List (Transaction × List Transaction))
    (possibleUncles : List (SideBlock chain.toNumberedChain)) :
    Option (FullBlock × List Receipt) :=
  let parent := chain.currentBlock.header
  let header := newHeader p now round presidentId (rules.codec.headerHash parent) parent
  (rules.commitTransactions header p.coinbase (TxSet.new pending)
    ⟨StateDB.new trie, header.gasUsed, 0, [], []⟩).map fun w =>
      let uncles := packagedUncles chain possibleUncles
      let header := { header with
        gasUsed := w.gasUsed
        root := (rules.finalize w.state header uncles).2 }
      let b := rules.newBlock header w.txs uncles w.receipts
      (b, w.receipts.map (Receipt.stamp (rules.codec.headerHash b.header)))

end Rules

end JuChain.Engine
