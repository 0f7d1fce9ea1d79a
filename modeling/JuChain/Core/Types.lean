import Mathlib.Data.Int.Notation
import Mathlib.Data.Nat.Notation

/-!
# Blocks and transactions

The parts of `core/types` that the chain and the consensus protocol read.  Block numbers stay below
`2 ^ 64` and are natural numbers.  `Block.hash` is the value `Block.Hash()` memoises: results about
the chain say where they need that the hash of a block determines the block.
-/

namespace JuChain

/-- `[]byte`. -/
abbrev Bytes := List UInt8

/-- `string`. -/
abbrev GoString := List UInt8

/-- `common.Hash`. -/
abbrev Hash := BitVec 256

/-- `common.Address`. -/
abbrev Address := BitVec 160

instance lawfulBEqHash : LawfulBEq Hash := inferInstance

instance lawfulBEqAddress : LawfulBEq Address := inferInstance

/-- The fields of a header that the chain uses. -/
structure Header where
  parentHash : Hash
  difficulty : ℤ
  number : ℕ
  time : ℤ
  round : UInt64
  presidentId : GoString
  deriving DecidableEq

/-- The fields of a transaction that the chain uses. -/
structure Transaction where
  hash : Hash
  sender : Address
  nonce : ℕ
  deriving DecidableEq

/-- A block with its hash. -/
structure Block where
  hash : Hash
  header : Header
  transactions : List Transaction
  deriving DecidableEq

namespace Block

/-- `Block.ParentHash`. -/
def parentHash (b : Block) : Hash := b.header.parentHash

/-- `Block.NumberU64`. -/
def number (b : Block) : ℕ := b.header.number

/-- `Block.Difficulty`. -/
def difficulty (b : Block) : ℤ := b.header.difficulty

/-- `Block.Time`. -/
def time (b : Block) : ℤ := b.header.time

/-- `Block.Round`. -/
def round (b : Block) : UInt64 := b.header.round

/-- The president of the round. -/
def presidentID (b : Block) : GoString := b.header.presidentId

end Block

end JuChain
