import JuChain.Core.Types
import JuChain.Lib.Index

/-!
# The block chain of a node

`core/blockchain.go` over the accessors of `core/database_util.go`.  The caches are copies of what
the database has, and database writes succeed.  Of the state tries only the header lookup that
garbage collection starts with is kept, because it can panic.
-/

namespace JuChain

/-! ## `core/database_util.go` -/

/-- Where a transaction is found: the block, and the index in its body. -/
structure TxLookupEntry where
  blockHash : Hash
  blockIndex : ℕ
  index : ℕ
  deriving DecidableEq

/-- Blocks and total difficulties are filed under number and hash; a missing canonical hash is the
zero hash. -/
structure Database where
  block : ℕ × Hash → Option Block
  td : ℕ × Hash → Option ℤ
  canonical : ℕ → Option Hash
  lookup : Hash → Option TxLookupEntry

variable (db : Database)

namespace Database

def getBlock (hash : Hash) (number : ℕ) : Option Block := db.block (number, hash)

def getTd (hash : Hash) (number : ℕ) : Option ℤ := db.td (number, hash)

def getCanonicalHash (number : ℕ) : Option Hash := db.canonical number

def getHeaderByNumber (number : ℕ) : Option Header :=
  (db.getCanonicalHash number).bind fun hash => (db.getBlock hash number).map Block.header

def writeBlock (block : Block) : Database :=
  { db with block := Index.put db.block ((block.number, block.hash), block) }

def writeTd (hash : Hash) (number : ℕ) (td : ℤ) : Database :=
  { db with td := Index.put db.td ((number, hash), td) }

def writeCanonicalHash (hash : Hash) (number : ℕ) : Database :=
  { db with canonical := Index.put db.canonical (number, hash) }

end Database

/-- The entries of the transactions of a block. -/
def Block.lookupEntries (block : Block) : List (Hash × TxLookupEntry) :=
  block.transactions.mapIdx fun i tx => (tx.hash, ⟨block.hash, block.number, i⟩)

namespace Database

def writeTxLookupEntries (block : Block) : Database :=
  { db with lookup := Index.putAll db.lookup block.lookupEntries }

def deleteTxLookupEntry (hash : Hash) : Database :=
  { db with lookup := Index.erase db.lookup hash }

/-- `GetBlock(block.ParentHash(), block.NumberU64()-1)`; for number 0 the subtraction wraps
around. -/
def getParent (block : Block) : Option Block :=
  match block.number with
  | 0 => none
  | n + 1 => db.getBlock block.parentHash n

/-- The total difficulty of the parent. -/
def getParentTd (block : Block) : Option ℤ :=
  match block.number with
  | 0 => none
  | n + 1 => db.getTd block.parentHash n

end Database

/-- `types.TxDifference`: the transactions of `a` whose hash is not among those of `b`. -/
def txDifference (a b : List Transaction) : List Transaction :=
  a.filter fun tx => tx.hash ∉ b.map Transaction.hash

/-! ## `core/blockchain.go` -/

/-- The database and the three heads. -/
structure BlockChain where
  db : Database
  currentBlock : Block
  currentHeader : Header
  currentFastBlock : Block

/-- The errors of a write. -/
inductive ChainError
  | unknownAncestor
  | invalidOldChain
  | invalidNewChain
  deriving DecidableEq

inductive WriteStatus
  | nonStatTy
  | canonStatTy
  | sideStatTy
  deriving DecidableEq

def triesInMemory : ℕ := 128

namespace BlockChain

/-- The chain `Genesis.Commit` leaves: one block, canonical, and no lookup entry. -/
def commit (genesis : Block) : BlockChain where
  db :=
    { block := Index.put (fun _ => none) ((genesis.number, genesis.hash), genesis)
      td := Index.put (fun _ => none) ((genesis.number, genesis.hash), genesis.difficulty)
      canonical := Index.put (fun _ => none) (genesis.number, genesis.hash)
      lookup := fun _ => none }
  currentBlock := genesis
  currentHeader := genesis.header
  currentFastBlock := genesis

/-- The other two heads follow when the block was not canonical before. -/
def insert (bc : BlockChain) (block : Block) : BlockChain :=
  let updateHeads := bc.db.getCanonicalHash block.number ≠ some block.hash
  { db := bc.db.writeCanonicalHash block.hash block.number
    currentBlock := block
    currentHeader := if updateHeads then block.header else bc.currentHeader
    currentFastBlock := if updateHeads then block else bc.currentFastBlock }

/-- The first loops of `reorg`: down from `block` to the given number, collecting the blocks above
it. -/
def reduce (db : Database) (number : ℕ) : ℕ → Block → Option (List Block × Block)
  | fuel, block =>
    if block.number = number then some ([], block)
    else match fuel with
      | 0 => none
      | fuel + 1 => (db.getParent block).bind fun parent =>
          (reduce db number fuel parent).map fun r => (block :: r.1, r.2)

/-- The loop of `reorg` down to the common ancestor. -/
def meet (db : Database) : ℕ → Block → Block → Except ChainError (List Block × List Block)
  | fuel, oldBlock, newBlock =>
    if oldBlock.hash = newBlock.hash then .ok ([], [])
    else match fuel with
      | 0 => .error .invalidOldChain
      | fuel + 1 =>
        match db.getParent oldBlock, db.getParent newBlock with
        | none, _ => .error .invalidOldChain
        | some _, none => .error .invalidNewChain
        | some oldParent, some newParent =>
          (meet db fuel oldParent newParent).map fun r => (oldBlock :: r.1, newBlock :: r.2)

/-- The two branches above the common ancestor. -/
def branches (oldBlock newBlock : Block) : Except ChainError (List Block × List Block) :=
  if oldBlock.number > newBlock.number then
    match reduce db newBlock.number oldBlock.number oldBlock with
    | none => .error .invalidOldChain
    | some (oldChain, oldBlock) =>
      (meet db oldBlock.number oldBlock newBlock).map fun r => (oldChain ++ r.1, r.2)
  else
    match reduce db oldBlock.number newBlock.number newBlock with
    | none => .error .invalidNewChain
    | some (newChain, newBlock) =>
      (meet db newBlock.number oldBlock newBlock).map fun r => (r.1, newChain ++ r.2)

/-- Insert the new chain from below, and delete the entries of transactions that only the old one
has. -/
def switch (bc : BlockChain) (oldChain newChain : List Block) : BlockChain :=
  let inserted := newChain.reverse.foldl (fun bc block =>
    let bc := bc.insert block
    { bc with db := bc.db.writeTxLookupEntries block }) bc
  let deletedTxs := oldChain.flatMap Block.transactions
  let addedTxs := newChain.reverse.flatMap Block.transactions
  let diff := txDifference deletedTxs addedTxs
  { inserted with db := diff.foldl (fun db tx => db.deleteTxLookupEntry tx.hash) inserted.db }

/-- `BlockChain.reorg`. -/
def reorg (bc : BlockChain) (oldBlock newBlock : Block) : Except ChainError BlockChain :=
  (branches bc.db oldBlock newBlock).map fun r => bc.switch r.1 r.2

/-- Whether a block becomes the head: by total difficulty, then by number, then by a coin. -/
def takesOver (externTd localTd : ℤ) (number head : ℕ) (coin : Bool) : Prop :=
  externTd > localTd ∨ externTd = localTd ∧ (number < head ∨ number = head ∧ coin)

instance (externTd localTd : ℤ) (number head : ℕ) (coin : Bool) :
    Decidable (takesOver externTd localTd number head coin) :=
  inferInstanceAs (Decidable (_ ∨ _ ∧ (_ ∨ _ ∧ _)))

/-- What a write leaves and returns. -/
structure Written where
  chain : BlockChain
  status : WriteStatus
  err : Option ChainError

/-- Whether the garbage collection meets a number without header. -/
def headerMissing (archive : Bool) (db : Database) (block : Block) : Prop :=
  archive = false ∧ block.number > triesInMemory ∧
    db.getHeaderByNumber (block.number - triesInMemory) = none

instance (archive : Bool) (db : Database) (block : Block) :
    Decidable (headerMissing archive db block) :=
  inferInstanceAs (Decidable (_ ∧ _ ∧ _))

/-- `none` is a panic: the header for garbage collection or the head's total difficulty is nil.  The
block and its lookup entries are written after `reorg`. -/
def writeBlockWithState (archive : Bool) (bc : BlockChain) (block : Block) (coin : Bool) :
    Option Written :=
  match bc.db.getParentTd block with
  | none => some ⟨bc, .nonStatTy, some .unknownAncestor⟩
  | some ptd =>
    let currentBlock := bc.currentBlock
    let externTd := block.difficulty + ptd
    let bc' := { bc with db := bc.db.writeTd block.hash block.number externTd }
    if headerMissing archive bc'.db block then none
    else match bc.db.getTd currentBlock.hash currentBlock.number with
      | none => none
      | some localTd =>
        if takesOver externTd localTd block.number currentBlock.number coin then
          match if block.parentHash ≠ currentBlock.hash then bc'.reorg currentBlock block
            else .ok bc' with
          | .error e => some ⟨bc', .nonStatTy, some e⟩
          | .ok bc' =>
            let bc' := { bc' with db := (bc'.db.writeBlock block).writeTxLookupEntries block }
            some ⟨bc'.insert block, .canonStatTy, none⟩
        else
          some ⟨{ bc' with db := bc'.db.writeBlock block }, .sideStatTy, none⟩

end BlockChain

end JuChain
