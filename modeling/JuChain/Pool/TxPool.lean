import JuChain.Lib.Runs
import JuChain.Pool.TxList
import Mathlib.Data.List.Sort

/-!
# The transaction pool

`core/tx_pool.go`.  The order in which Go lists a map and what its clock shows are given by the
environment: the pool counts in `tick` how often it has asked.
-/

namespace JuChain.Pool

open State

/-- What the pool reads of `TxPoolConfig`.  `Cap` takes the limit of an account as an `int`, where
`2^63` or more would panic. -/
structure Config where
  noLocals : Bool
  priceBump : UInt64
  accountSlots : UInt64
  globalSlots : UInt64
  accountQueue : UInt64
  accountQueue_lt : accountQueue.toNat < 2 ^ 63
  globalQueue : UInt64
  lifetime : ℤ

/-- What is fixed for a pool, and what its environment does at each tick. -/
structure Env where
  config : Config
  /-- The DApps the node has a chain of. -/
  dappchains : Address → Bool
  clock : ℕ → ℤ
  addresses : ℕ → List Address → List Address
  addresses_perm : ∀ tick xs, (addresses tick xs).Perm xs
  transactions : ℕ → List Transaction → List Transaction
  transactions_perm : ∀ tick xs, (transactions tick xs).Perm xs

/-- The lists of the accounts. -/
abbrev Lists := AList fun _ : Address => TxList

structure TxPool where
  gasPrice : ℤ
  currentState : StateDB
  pendingNonce : Address → ℕ
  currentMaxGas : UInt64
  locals : List Address := []
  dappPending : Lists := ∅
  pending : Lists := ∅
  queue : Lists := ∅
  beats : AList (fun _ : Address => ℤ) := ∅
  all : TxIndex := ∅
  priced : TxPricedList := ⟨[], 0⟩
  tick : ℕ := 0

/-- The errors of `add`. -/
inductive AddError
  | known (hash : Hash)
  | oversizedData
  | unknownDApp (id : Address)
  | noDiskSpace (id : Address)
  | negativeValue
  | gasLimit
  | invalidSender
  | underpriced
  | nonceTooLow
  | insufficientFunds
  | intrinsic (e : TxError)
  | intrinsicGas
  | replaceUnderpriced
  deriving DecidableEq

/-- `DAppAddress.Has` and `HasDiskSpace`, which accept every DApp. -/
def hasDApp (_ : Address) : Bool := true

/-- A check that always succeeds. -/
def hasDiskSpace (_ : Address) : Bool := true

namespace TxPool

variable (env : Env)
variable (p : TxPool)

/-! ## The parts of the pool -/

/-- The nonce in the current state. -/
def stateNonce (a : Address) : ℕ := (p.currentState.getNonce a).toNat

/-- `locals.containsTx`. -/
def isLocalTx (tx : Transaction) : Bool := tx.sender.any (· ∈ p.locals)

/-- `pendingState.SetNonce`. -/
def setNonce (a : Address) (n : ℕ) : TxPool :=
  { p with pendingNonce := Function.update p.pendingNonce a n }

/-- A lower nonce is set. -/
def lowerNonce (a : Address) (n : ℕ) : TxPool :=
  if n < p.pendingNonce a then p.setNonce a n else p

/-- The pooled transactions in the order of the map. -/
def pooled : List Transaction :=
  env.transactions p.tick (p.all.entries.map fun e => e.2)

/-- `priced.Removed`. -/
def priceRemoved : TxPool :=
  { p with priced := p.priced.removed (p.pooled env), tick := p.tick + 1 }

/-- `delete(pool.all, hash)` and `pool.priced.Removed()`. -/
def forget (hash : Hash) : TxPool :=
  priceRemoved env { p with all := p.all.erase hash }

/-- Transactions leave `all`. -/
def forgetAll (txs : List Transaction) : TxPool :=
  txs.foldl (fun p tx => p.forget env tx.hash) p

/-- The place of a transaction in `pool.all` and the price heap. -/
def remember (tx : Transaction) : TxPool :=
  { p with all := p.all.insert tx.hash tx, priced := p.priced.put tx }

/-- The same for a transaction that may be there already. -/
def rememberNew (tx : Transaction) : TxPool :=
  if (p.all.lookup tx.hash).isNone then p.remember tx else p

/-- `pending[a] = l`. -/
def setPending (a : Address) (l : TxList) : TxPool :=
  { p with pending := p.pending.insert a l }

/-- `queue[a] = l`. -/
def setQueue (a : Address) (l : TxList) : TxPool :=
  { p with queue := p.queue.insert a l }

def validateTx (tx : Transaction) (isLocal : Bool) : Except AddError Unit :=
  if 32 * 1024 < tx.size then .error .oversizedData
  else if tx.dappTx.any fun d => !hasDApp d.dappID.value then .error (.unknownDApp tx.dappID.value)
  else if tx.dappTx.any fun d => !hasDiskSpace d.dappID.value then
    .error (.noDiskSpace tx.dappID.value)
  else if tx.value < 0 then .error .negativeValue
  else if p.currentMaxGas < tx.gas then .error .gasLimit
  else match tx.sender with
    | none => .error .invalidSender
    | some sender =>
      if (isLocal || sender ∈ p.locals) = false ∧ tx.gasPrice < p.gasPrice then .error .underpriced
      else if tx.nonce < p.stateNonce sender then .error .nonceTooLow
      else if p.currentState.getBalance sender < tx.cost then .error .insufficientFunds
      else match intrinsicGas tx.data tx.toIsNil with
        | .error e => .error (.intrinsic e)
        | .ok gas => if tx.gas < gas then .error .intrinsicGas else .ok ()

/-! ## `enqueueTx` and `removeTx` -/

def enqueueTx (tx : Transaction) : TxPool × Except AddError Bool :=
  let sender := tx.sender.getD 0
  let p := if (p.queue.lookup sender).isNone then p.setQueue sender (newTxList false) else p
  match ((p.queue.lookup sender).getD (newTxList false)).add tx env.config.priceBump with
  | none => (p, .error .replaceUnderpriced)
  | some (list, old) =>
    let p := p.setQueue sender list
    let p := p.forgetAll env old.toList
    (p.rememberNew tx, .ok old.isSome)

/-- `enqueueTx` for each. -/
def enqueueAll (txs : List Transaction) : TxPool :=
  txs.foldl (fun p tx => (p.enqueueTx env tx).1) p

/-- The part of `removeTx` for a transaction in the list of pending ones: those after it are
queued again. -/
def unpend (a : Address) (tx : Transaction) (invalids : List Transaction) (list : TxList) : TxPool :=
  let p := if list.len = 0 then { p with pending := p.pending.erase a, beats := p.beats.erase a }
    else p.setPending a list
  let p := p.enqueueAll env (env.transactions p.tick invalids)
  p.lowerNonce a tx.nonce

/-- The transaction leaves the queue. -/
def unqueue (a : Address) (tx : Transaction) : TxPool :=
  match p.queue.lookup a with
  | none => p
  | some future =>
    let future := ((future.remove tx).map (·.2)).getD future
    if future.len = 0 then { p with queue := p.queue.erase a } else p.setQueue a future

def removeTx (hash : Hash) (outofbound : Bool) : TxPool :=
  match p.all.lookup hash with
  | none => p
  | some tx =>
    let a := tx.sender.getD 0
    let p := { p with all := p.all.erase hash }
    let p := if outofbound then p.priceRemoved env else p
    match (p.pending.lookup a).bind (·.remove tx) with
    | some (invalids, list) => p.unpend env a tx invalids list
    | none => p.unqueue a tx

/-- `removeTx` for each. -/
def removeAll (txs : List Transaction) (outofbound : Bool) : TxPool :=
  txs.foldl (fun p tx => p.removeTx env tx.hash outofbound) p

/-! ## `add` -/

/-- The slots of the pool. -/
def limit : UInt64 := env.config.globalSlots + env.config.globalQueue

/-- The pool is full. -/
def full : Bool := (limit env).toNat ≤ p.all.entries.length

/-- How many have to go. -/
def surplus : ℤ := p.all.entries.length - (limit env - 1).toInt64.toInt

/-- `priced.Underpriced`. -/
def underpriced (p : TxPool) (tx : Transaction) (isLocal : Bool) : TxPool × Bool :=
  if isLocal then (p, false)
  else
    let (priced, under) := p.priced.underpriced p.all p.isLocalTx tx
    ({ p with priced := priced }, under)

/-- The cheapest transactions are dropped. -/
def makeRoom : TxPool :=
  let (priced, drop) := p.priced.discard p.all p.isLocalTx (p.surplus env)
  removeAll env { p with priced := priced } drop false

/-- The part of `add` for a transaction with the nonce of a pending one. -/
def replacePending (list : TxList) (tx : Transaction) : TxPool × Except AddError Bool :=
  match list.add tx env.config.priceBump with
  | none => (p, .error .replaceUnderpriced)
  | some (list, old) =>
    let p := p.setPending (tx.sender.getD 0) list
    let p := p.forgetAll env old.toList
    (p.remember tx, .ok old.isSome)

/-- The part of `add` after all checks. -/
def insert (tx : Transaction) (isLocal : Bool) : TxPool × Except AddError Bool :=
  let sender := tx.sender.getD 0
  match (p.pending.lookup sender).filter (·.overlaps tx) with
  | some list => p.replacePending env list tx
  | none =>
    match p.enqueueTx env tx with
    | (p, .error e) => (p, .error e)
    | (p, .ok replaced) =>
      (if isLocal then { p with locals := sender :: p.locals } else p, .ok replaced)

/-- `TxPool.add`. -/
def add (tx : Transaction) (isLocal : Bool) : TxPool × Except AddError Bool :=
  if (p.all.lookup tx.hash).isSome then (p, .error (.known tx.hash))
  else match p.validateTx tx isLocal with
    | .error e => (p, .error e)
    | .ok _ =>
      if p.full env then
        match p.underpriced tx isLocal with
        | (p, true) => (p, .error .underpriced)
        | (p, false) => (p.makeRoom env).insert env tx isLocal
      else p.insert env tx isLocal

/-- Put a transaction into the list of a DApp, unless its nonce is there already. -/
def addDApp (dappPending : Lists) (id : Address) (tx : Transaction) : Lists :=
  let list := (dappPending.lookup id).getD (newTxList true)
  if list.overlaps tx then dappPending
  else dappPending.insert id (((list.add tx env.config.priceBump).map (·.1)).getD list)

/-- The DApp part of `promoteTx`: the companion, and the transaction itself when neither of its
pointers is the shared one. -/
def promoteDApp (dappPending : Lists) (tx : Transaction) : Lists :=
  let dappPending := match tx.dappTx with
    | none => dappPending
    | some d => addDApp env dappPending d.dappID.value { toTxData := d }
  if tx.dappID ≠ .empty ∧ tx.refHashId ≠ .empty then addDApp env dappPending tx.dappID.value tx
  else dappPending

def promoteTx (a : Address) (tx : Transaction) : TxPool :=
  let list := (p.pending.lookup a).getD (newTxList true)
  match list.add tx env.config.priceBump with
  | none => (p.setPending a list).forget env tx.hash
  | some (list, old) =>
    let p := p.setPending a list
    let p := p.forgetAll env old.toList
    let p := p.rememberNew tx
    let p := { p with beats := p.beats.insert a (env.clock p.tick), tick := p.tick + 1 }
    let p := p.setNonce a ((tx.nonce + 1) % 2 ^ 64)
    { p with dappPending := promoteDApp env p.dappPending tx }

/-- `promoteTx` for each. -/
def promoteAll (a : Address) (txs : List Transaction) : TxPool :=
  txs.foldl (fun p tx => p.promoteTx env a tx) p

/-! ## `promoteExecutables` -/

/-- Drop the queued transactions of an account that are too old or too costly. -/
def sweepQueue (a : Address) (list : TxList) : TxPool × TxList :=
  let (old, list) := list.forward (p.stateNonce a)
  let p := (p.setQueue a list).forgetAll env old
  let (drops, _, list) := list.filter (p.currentState.getBalance a) p.currentMaxGas
  ((p.setQueue a list).forgetAll env (env.transactions p.tick drops), list)

/-- Drop the queued transactions of an account beyond the limit. -/
def capQueue (a : Address) (list : TxList) : TxPool :=
  let (capped, list) := if a ∈ p.locals then ([], list) else list.cap env.config.accountQueue.toNat
  let p := (p.setQueue a list).forgetAll env capped
  if list.len = 0 then { p with queue := p.queue.erase a } else p

/-- The loop body of `promoteExecutables`. -/
def promoteAccount (a : Address) : TxPool :=
  match p.queue.lookup a with
  | none => p
  | some list =>
    let (p, list) := p.sweepQueue env a list
    let (ready, list) := list.ready (p.pendingNonce a)
    ((p.setQueue a list).promoteAll env a ready).capQueue env a list

/-- The length of an account's list. -/
def lenOf (lists : Lists) (a : Address) : ℕ := ((lists.lookup a).map TxList.len).getD 0

/-- The transactions in all lists. -/
def count (lists : Lists) : ℕ := (lists.entries.map fun e => e.2.len).sum

/-- The last pending transaction is dropped. -/
def dropLast (a : Address) : TxPool :=
  match p.pending.lookup a with
  | none => p
  | some list =>
    let (drops, list) := list.cap (list.len - 1)
    drops.foldl (fun p tx => (p.forget env tx.hash).lowerNonce a tx.nonce) (p.setPending a list)

/-- Drop the last pending transaction of each account in turn, while too many are pending. -/
def shrink (accounts : List Address) (watched : Address) (threshold : ℕ) : ℕ → TxPool → ℕ → TxPool × ℕ
  | 0, p, pending => (p, pending)
  | fuel + 1, p, pending =>
    if env.config.globalSlots.toNat < pending ∧ threshold < lenOf p.pending watched then
      shrink accounts watched threshold fuel (accounts.foldl (fun p a => p.dropLast env a) p)
        (pending - accounts.length)
    else (p, pending)

/-- The loop that takes the offenders, largest first, and shrinks the ones before to the size of the
next. -/
def equalize : List Address → List Address → TxPool → ℕ → TxPool × ℕ × List Address
  | [], offenders, p, pending => (p, pending, offenders)
  | offender :: spammers, offenders, p, pending =>
    if pending ≤ env.config.globalSlots.toNat then (p, pending, offenders)
    else
      let (p, pending) := match offenders.getLast? with
        | none => (p, pending)
        | some last =>
          shrink env offenders last (lenOf p.pending offender) pending p pending
      equalize spammers (offenders ++ [offender]) p pending

/-- The accounts that have more pending transactions than they may, largest first. -/
def spammers : List Address :=
  ((env.addresses p.tick p.pending.keys).filter fun a =>
    decide (a ∉ p.locals) && decide (env.config.accountSlots.toNat < lenOf p.pending a)).insertionSort
      fun a b => lenOf p.pending b ≤ lenOf p.pending a

/-- The part of `promoteExecutables` for too many pending transactions. -/
def truncatePending : TxPool :=
  let pending := count p.pending
  if pending ≤ env.config.globalSlots.toNat then p
  else
    let (p, pending, offenders) :=
      equalize env (p.spammers env) [] { p with tick := p.tick + 1 } pending
    match offenders.getLast? with
    | none => p
    | some last => (shrink env offenders last env.config.accountSlots.toNat pending p pending).1

/-- The last heartbeat of one account is not after that of the other; none is the earliest. -/
def beatLE (a b : Address) : Bool :=
  match p.beats.lookup a, p.beats.lookup b with
  | none, _ => true
  | some _, none => false
  | some x, some y => x ≤ y

/-- The loop that drops queued transactions, the latest heartbeat first. -/
def dropQueued : List Address → ℕ → TxPool → TxPool
  | [], _, p => p
  | a :: rest, drop, p =>
    if drop = 0 then p
    else
      let txs := ((p.queue.lookup a).map (·.txs.items)).getD []
      if txs.length ≤ drop then dropQueued rest (drop - txs.length) (p.removeAll env txs true)
      else p.removeAll env (txs.reverse.take drop) true

/-- The part of `promoteExecutables` for too many queued transactions. -/
def truncateQueue : TxPool :=
  let queued := count p.queue
  if queued ≤ env.config.globalQueue.toNat then p
  else
    let addresses := ((env.addresses p.tick p.queue.keys).filter (· ∉ p.locals)).insertionSort
      fun a b => p.beatLE a b
    dropQueued env addresses.reverse (queued - env.config.globalQueue.toNat)
      { p with tick := p.tick + 1 }

def promoteExecutables (accounts : List Address) : TxPool :=
  ((accounts.foldl (fun p a => p.promoteAccount env a) p).truncatePending env).truncateQueue env

/-- `promoteExecutables(nil)`: of all accounts with queued transactions. -/
def promoteQueued : TxPool :=
  promoteExecutables env { p with tick := p.tick + 1 } (env.addresses p.tick p.queue.keys)

/-- Drop the pending transactions that are too old or too costly, and queue those after one of the
latter. -/
def sweepPending (a : Address) (list : TxList) : TxPool × TxList :=
  let (old, list) := list.forward (p.stateNonce a)
  let p := (p.setPending a list).forgetAll env old
  let (drops, invalids, list) := list.filter (p.currentState.getBalance a) p.currentMaxGas
  let p := (p.setPending a list).forgetAll env (env.transactions p.tick drops)
  (p.enqueueAll env (env.transactions p.tick invalids), list)

/-- Queue all pending transactions if the first one is missing, and delete an empty list. -/
def closeGap (a : Address) (list : TxList) : TxPool :=
  let (gapped, list) :=
    if 0 < list.len ∧ list.txs.get (p.stateNonce a) = none then list.cap 0 else ([], list)
  let p := (p.setPending a list).enqueueAll env gapped
  if list.len = 0 then { p with pending := p.pending.erase a, beats := p.beats.erase a } else p

/-- The loop body of `demoteUnexecutables`. -/
def demoteAccount (a : Address) : TxPool :=
  match p.pending.lookup a with
  | none => p
  | some list =>
    let (p, list) := p.sweepPending env a list
    p.closeGap env a list

def demoteUnexecutables : TxPool :=
  (env.addresses p.tick p.pending.keys).foldl (fun p a => p.demoteAccount env a)
    { p with tick := p.tick + 1 }

def addTx (tx : Transaction) (isLocal : Bool) : TxPool :=
  match p.add env tx isLocal with
  | (p, .ok false) => p.promoteExecutables env [tx.sender.getD 0]
  | (p, _) => p

/-- The loop of `addTxsLocked`: also the accounts that got a new transaction. -/
def addEach (isLocal : Bool) : List Transaction → TxPool → List Address → TxPool × List Address
  | [], p, dirty => (p, dirty)
  | tx :: rest, p, dirty =>
    match p.add env tx isLocal with
    | (p, .ok false) => addEach isLocal rest p (dirty.insert (tx.sender.getD 0))
    | (p, _) => addEach isLocal rest p dirty

def addTxsLocked (txs : List Transaction) (isLocal : Bool) : TxPool :=
  let (p, dirty) := addEach env isLocal txs p []
  if dirty = [] then p
  else promoteExecutables env { p with tick := p.tick + 1 } (env.addresses p.tick dirty)

def setGasPrice (price : ℤ) : TxPool :=
  let (priced, drop) := p.priced.cap p.all p.isLocalTx price
  removeAll env { p with gasPrice := price, priced := priced } drop false

/-- The eviction of an account. -/
def evictAccount (a : Address) : TxPool :=
  if a ∈ p.locals then p
  else
    let now := env.clock p.tick
    let expired :=
      ((p.beats.lookup a).map fun beat => decide (env.config.lifetime < now - beat)).getD true
    if expired then
      removeAll env { p with tick := p.tick + 1 } (((p.queue.lookup a).map (·.txs.items)).getD []) true
    else { p with tick := p.tick + 1 }

/-- The eviction of accounts without a heartbeat for the lifetime. -/
def evict : TxPool :=
  (env.addresses p.tick p.queue.keys).foldl (fun p a => p.evictAccount env a)
    { p with tick := p.tick + 1 }

end TxPool

end JuChain.Pool
