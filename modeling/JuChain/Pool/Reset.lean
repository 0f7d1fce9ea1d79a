import JuChain.Pool.TxPool

/-!
# Following the chain

`TxPool.reset` and the runs of a pool.  A head whose block is not stored, a nonce that the list of a
DApp does not have and a DApp without a chain make the code dereference a nil pointer (`none`).
-/

namespace JuChain.Pool

open State

/-- A block, or, where the pool is given a header, the header. -/
structure Block where
  hash : Hash
  parentHash : Hash
  number : ℕ
  root : Hash
  gasLimit : UInt64
  transactions : List Transaction

/-- The chain as the pool reads it. -/
structure Chain where
  getBlock : Hash → ℕ → Option Block
  filed : ∀ {h n b}, getBlock h n = some b → b.hash = h ∧ b.number = n
  stateAt : Hash → Option StateDB

/-- `GetBlock(b.ParentHash(), b.NumberU64()-1)`. -/
def Chain.parent (chain : Chain) (b : Block) : Option Block :=
  match b.number with
  | 0 => none
  | n + 1 => chain.getBlock b.parentHash n

/-- The two heads between which the pool moves. -/
structure HeadChange where
  chain : Chain
  oldHead : Option Block
  newHead : Block

namespace HeadChange

/-- The block of the new head, if it is stored. -/
def newBlock (ev : HeadChange) : Option Block := ev.chain.getBlock ev.newHead.hash ev.newHead.number

/-- The loops that walk down to the number `n`, collecting the transactions; `none` when a parent is
missing. -/
def descend (chain : Chain) (n : ℕ) :
    ℕ → Block → List Transaction → Option (Block × List Transaction)
  | 0, b, txs => some (b, txs)
  | fuel + 1, b, txs =>
    if n < b.number then
      (chain.parent b).bind fun parent => descend chain n fuel parent (txs ++ b.transactions)
    else some (b, txs)

/-- The loop that walks down both branches until they meet. -/
def meet (chain : Chain) : ℕ → Block → Block → List Transaction → List Transaction →
    Option (List Transaction × List Transaction)
  | 0, _, _, discarded, included => some (discarded, included)
  | fuel + 1, rem, add, discarded, included =>
    if rem.hash = add.hash then some (discarded, included)
    else
      (chain.parent rem).bind fun rem' => (chain.parent add).bind fun add' =>
        meet chain fuel rem' add' (discarded ++ rem.transactions) (included ++ add.transactions)

/-- `types.TxDifference`. -/
def txDifference (a b : List Transaction) : List Transaction :=
  a.filter fun tx => tx.hash ∉ b.map (·.hash)

/-- The transactions of the abandoned branch that are not in the new one, or `none` when the
branches do not meet. -/
def branches (chain : Chain) (old new : Block) : Option (List Transaction) :=
  (descend chain new.number old.number old []).bind fun (rem, discarded) =>
    (descend chain old.number new.number new []).bind fun (add, included) =>
      (meet chain (rem.number + 1) rem add discarded included).map fun (discarded, included) =>
        txDifference discarded included

end HeadChange

/-- How the walk ends: at a nil block, with a `return` where a branch has no root, or with
transactions to offer. -/
inductive Reinjection where
  | panics
  | unrooted
  | offers (txs : List Transaction)

/-- The first part of `reset`: the transactions that the new branch lacks. -/
def reinjection (chain : Chain) (oldHead : Option Block) (newHead : Block) : Reinjection :=
  match oldHead with
  | none => .offers []
  | some old =>
    if old.hash = newHead.parentHash then .offers []
    else if 64 < ((old.number : ℤ) - newHead.number).natAbs then .offers []
    else
      -- both blocks are used before the loops ask whether a parent is there
      match chain.getBlock old.hash old.number, chain.getBlock newHead.hash newHead.number with
      | some rem, some add => ((HeadChange.branches chain rem add).map .offers).getD .unrooted
      | _, _ => .panics

/-- What `reset` injects again. -/
def HeadChange.reinject (ev : HeadChange) : Reinjection := reinjection ev.chain ev.oldHead ev.newHead

/-- What `reset` hands to the chain of a DApp. -/
structure DAppBlock where
  dappID : Address
  dappMainHash : Hash
  transactions : List Transaction
  deriving DecidableEq

namespace TxPool

variable (env : Env)
variable (p : TxPool)

/-- The transactions of a DApp for a main block; `none` when one is missing. -/
def dappTxs (list : TxList) (id : Address) : List Transaction → Option (List Transaction)
  | [] => some []
  | tx :: rest =>
    if tx.dappID.value = id then
      (list.removeByNouce tx.nonce).bind fun found =>
        (dappTxs list id rest).map fun txs => found :: txs
    else dappTxs list id rest

/-- The block of a DApp with transactions in the main block; `none` when one is missing or the node
lacks the chain. -/
def packageDApp (b : Block) (id : Address) (list : TxList) : Option (List DAppBlock) :=
  (dappTxs list id b.transactions).bind fun txs =>
    if txs = [] then some []
    else if env.dappchains id then some [⟨id, b.hash, txs⟩]
    else none

/-- The loop over the map `dappPending`. -/
def packageEach (p : TxPool) (b : Block) : List Address → Option (List DAppBlock)
  | [] => some []
  | id :: rest =>
    (packageDApp env b id ((p.dappPending.lookup id).getD (newTxList true))).bind fun first =>
      (packageEach p b rest).map fun others => first ++ others

/-- The DApp blocks of a main block, in the order of the map. -/
def packageDApps (b : Block) : Option (List DAppBlock) :=
  packageEach env p b (env.addresses p.tick p.dappPending.keys)

/-- Take over the state of the new head. -/
def follow (state : StateDB) (head : Block) : TxPool :=
  { p with
    currentState := state
    pendingNonce := fun a => (state.getNonce a).toNat
    currentMaxGas := head.gasLimit }

/-- The nonce after the last one of a list. -/
def nextNonce (list : TxList) : Option ℕ :=
  list.txs.items.getLast?.map fun tx => (tx.nonce + 1) % 2 ^ 64

/-- Set the pending nonces of all accounts with pending transactions. -/
def updateNonces : TxPool :=
  p.pending.entries.foldl (fun p e => ((nextNonce e.2).map (p.setNonce e.1 ·)).getD p) p

/-- The last part of `reset`: demote, set the nonces, promote. -/
def settle : TxPool :=
  ((demoteUnexecutables env { p with tick := p.tick + 1 }).updateNonces).promoteQueued env

/-- The pool after a change of the head, and the DApp blocks; `none` is a panic. -/
def reset (ev : HeadChange) : Option (TxPool × List DAppBlock) :=
  match ev.reinject with
  | .panics => none
  | .unrooted => some (p, [])
  | .offers txs =>
    match ev.chain.stateAt ev.newHead.root with
    | none => some (p, [])
    | some state =>
      let p := (p.follow state ev.newHead).addTxsLocked env txs false
      ev.newBlock.bind fun newBlock =>
        (p.packageDApps env newBlock).map fun blocks => (p.settle env, blocks)

/-- The calls that change a pool. -/
inductive Op
  | addLocal (tx : Transaction)
  | addRemote (tx : Transaction)
  | addLocals (txs : List Transaction)
  | addRemotes (txs : List Transaction)
  | setGasPrice (price : ℤ)
  | reset (ev : HeadChange)
  | evict

/-- One call, with the DApp blocks it builds; `none` when it panics. -/
def exec : Op → Option (TxPool × List DAppBlock)
  | .addLocal tx => some (p.addTx env tx !env.config.noLocals, [])
  | .addRemote tx => some (p.addTx env tx false, [])
  | .addLocals txs => some (p.addTxsLocked env txs !env.config.noLocals, [])
  | .addRemotes txs => some (p.addTxsLocked env txs false, [])
  | .setGasPrice price => some (p.setGasPrice env price, [])
  | .reset ev => p.reset env ev
  | .evict => some (p.evict env, [])

/-- The pool after a call, if the call does not panic. -/
def step (op : Op) : Option TxPool := (p.exec env op).map (·.1)

/-- `NewTxPool` on a state, without a journal. -/
def new (gasPrice : ℤ) (state : StateDB) (maxGas : UInt64) : TxPool where
  gasPrice := gasPrice
  currentState := state
  pendingNonce a := (state.getNonce a).toNat
  currentMaxGas := maxGas

end TxPool

/-! ## Samples -/

/-- An environment. -/
def sampleEnv (globalSlots globalQueue : UInt64) (dappchains : Address → Bool) : Env where
  config :=
    { noLocals := false
      priceBump := 10
      accountSlots := 16
      globalSlots := globalSlots
      accountQueue := 64
      accountQueue_lt := by decide
      globalQueue := globalQueue
      lifetime := 10800 }
  dappchains := dappchains
  clock _ := 0
  addresses _ xs := xs
  addresses_perm _ _ := .refl _
  transactions _ xs := xs
  transactions_perm _ _ := .refl _

instance neZeroNonces : NeZero (2 ^ 64) := ⟨by decide⟩

/-- A transaction. -/
def sampleTx (hash : Hash) (sender : Address) (nonce : Fin (2 ^ 64)) (gasPrice : ℤ) : Transaction where
  hash := hash
  sender := some sender
  nonce := nonce
  nonce_lt := nonce.isLt
  gasPrice := gasPrice
  gas := 21000
  recipient := some (.fresh 1)
  value := 0
  data := []
  size := 100
  dappID := .empty
  refHashId := .empty

/-- A state in which all accounts are rich. -/
def sampleState (nonce : UInt64) : StateDB :=
  .new fun _ => some { balance := 1000000000, nonce := nonce }

/-- An empty pool over it. -/
def samplePool (nonce : UInt64) : TxPool := .new 1 (sampleState nonce) 1000000

/-- A chain of the given blocks. -/
def sampleChain (blocks : List Block) (stateAt : Hash → Option StateDB) : Chain where
  getBlock h n := blocks.find? fun b => b.hash = h ∧ b.number = n
  filed h := by
    have found := List.find?_some h
    exact of_decide_eq_true found
  stateAt := stateAt

/-- The block at number 1. -/
def sampleHead (txs : List Transaction) : Block where
  hash := 100
  parentHash := 99
  number := 1
  root := 0
  gasLimit := 1000000
  transactions := txs

/-- The chain starts with it. -/
def sampleStart (txs : List Transaction) : HeadChange where
  chain := sampleChain [sampleHead txs] fun _ => some (sampleState 0)
  oldHead := none
  newHead := sampleHead txs

end JuChain.Pool
