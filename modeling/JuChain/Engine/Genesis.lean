import JuChain.Engine.Execution

/-!
# The genesis block

`core/genesis.go`.  `ToBlock` fills an empty state from the allocation, lets one account create the
two contracts of the main chain, and makes a block of the result.  The order in which Go visits the
map of the allocation is an argument.

The receipts are stored as none, and the second creation is in no body (`commit_consistent_iff`).
-/

namespace JuChain.Engine

open State Slices Function

variable {Config : Type}

/-! ## The specification -/

/-- The balance may be nil; the storage is a map, listed in some order. -/
structure GenesisAccount where
  balance : Option ℤ
  code : Bytes
  nonce : UInt64
  storage : List (Hash × Hash)
  nodup : (storage.map Prod.fst).Nodup

structure Genesis (Config : Type) where
  config : Option Config
  nonce : UInt64
  timestamp : UInt64
  extraData : Bytes
  gasLimit : UInt64
  difficulty : Option ℤ
  mixhash : Hash
  coinbase : Address
  alloc : List (Address × GenesisAccount)
  number : UInt64
  gasUsed : UInt64
  parentHash : Hash
  nodup : (alloc.map Prod.fst).Nodup

/-- A header with the seal that `ToBlock` takes from the specification. -/
structure SealedHeader extends plain : Header where
  nonce : UInt64
  mixDigest : Hash
  deriving DecidableEq

/-- What the genesis block depends on besides its specification. -/
structure GenesisRules (Config : Type) where
  rules : Rules
  dappCode : Bytes
  dappCode_lt : dappCode.length < 2 ^ 63
  ballotCode : Bytes
  ballotCode_lt : ballotCode.length < 2 ^ 63
  /-- the hash of a contract creation, by its nonce, gas limit and data -/
  creationHash : UInt64 → UInt64 → Bytes → Hash
  headerHash : SealedHeader → Hash
  mainnetConfig : Config
  defaultGenesis : Genesis Config
  /-- `CheckCompatible` at a height: the block to rewind to on a conflict. -/
  checkCompatible : Config → Config → ℕ → Option ℕ

def genesisGasLimit : UInt64 := 41424776

def genesisDifficulty : ℤ := 131072

namespace Genesis

/-- The header of `ToBlock` before the contracts are installed. -/
def head (g : Genesis Config) : Header where
  parentHash := g.parentHash
  difficulty := g.difficulty.getD genesisDifficulty
  number := g.number.toNat
  time := g.timestamp.toNat
  round := 0
  presidentId := []
  uncleHash := 0
  coinbase := g.coinbase
  root := 0
  txHash := 0
  receiptHash := 0
  bloom := 0
  gasLimit := if g.gasLimit = 0 then genesisGasLimit else g.gasLimit
  gasUsed := g.gasUsed
  extra := g.extraData
  dappID := 0

end Genesis

/-! ## `ToBlock` -/

/-- The account is written to the state. -/
def GenesisAccount.fill (account : GenesisAccount) (a : Address) (balance : ℤ) (s : StateDB) :
    StateDB :=
  account.storage.foldl (fun s kv => s.setState a kv.1 kv.2)
    (((s.addBalance a balance).setCode a account.code).setNonce a account.nonce)

/-- The loop of `ToBlock` over the allocation, which crashes on a nil balance. -/
def allocate : List (Address × GenesisAccount) → StateDB → Except (Fault Unit) StateDB
  | [], s => .ok s
  | (a, account) :: rest, s =>
    match account.balance with
    | none => .error .panic
    | some balance => allocate rest (account.fill a balance s)

/-- What `dappAddr` points to: the account visited last, or the empty address. -/
def creator (order : List (Address × GenesisAccount)) : Address :=
  (order.getLast?.map Prod.fst).getD 0

/-- Without any account, the empty address is given one ether. -/
def endow (order : List (Address × GenesisAccount)) (s : StateDB) : StateDB :=
  if order.isEmpty then s.addBalance 0 1000000000000000000 else s

/-- `Finalise(false)`: as `finalise`, but empty accounts stay. -/
def finaliseKeeping (s : StateDB) : StateDB :=
  let kept (o : StateObject) := if o.suicided then none else some o
  { s with
    trie := fun a => if 0 < s.dirties a ∧ (s.objects a).isSome then (s.objects a).bind kept
      else s.trie a
    objects := fun a => if 0 < s.dirties a then (s.objects a).bind kept else s.objects a
    entries := []
    dirties := fun _ => 0
    refund := 0 }

/-- The genesis block. -/
structure GenesisBlock where
  header : SealedHeader
  transactions : List Transaction
  deriving DecidableEq

namespace GenesisRules

variable (p : GenesisRules Config)

def newContractCreation (nonce gasLimit : UInt64) (data : Bytes) (data_lt : data.length < 2 ^ 63) :
    Transaction where
  hash := p.creationHash nonce gasLimit data
  sender := none
  nonce := nonce
  gasPrice := 300000
  gas := gasLimit
  recipient := none
  value := 0
  data := data
  data_lt := data_lt

/-- `ApplyGenesisTransaction`: `ApplyTransaction`, but the sender is given. -/
def applyGenesisTransaction (sender : Address) (s : StateDB) (header : Header) (tx : Transaction)
    (usedGas : UInt64) : Except (Fault Unit) (StateDB × Receipt × UInt64) :=
  match p.rules.applyTransaction (some header.coinbase) header.gasLimit s header
    { tx with sender := some sender } usedGas with
  | none => .error .panic
  | some r =>
    match r.result with
    | .error _ => .error (.err ())
    | .ok (receipt, usedGas) => .ok (r.state, receipt, usedGas)

variable (g : Genesis Config)

/-- The first transaction of the block. -/
def dapptx : Transaction := p.newContractCreation 0 g.head.gasLimit p.dappCode p.dappCode_lt

/-- The second transaction of the block. -/
def dapptx1 : Transaction := p.newContractCreation 1 g.head.gasLimit p.ballotCode p.ballotCode_lt

/-- The two installations by `sender`: the state, the first receipt and the gas used. -/
def install (sender : Address) (s : StateDB) : Except (Fault Unit) (StateDB × Receipt × UInt64) := do
  let (s, receipt, usedGas) ← p.applyGenesisTransaction sender s g.head (p.dapptx g) g.gasUsed
  let (s, _, usedGas) ← p.applyGenesisTransaction sender s g.head (p.dapptx1 g) usedGas
  return (s, receipt, usedGas)

/-- The block over the state. -/
def assemble (s : StateDB) (receipt : Receipt) (usedGas : UInt64) : GenesisBlock :=
  let header := { g.head with
    gasUsed := usedGas
    gasLimit := usedGas
    root := p.rules.codec.trieRoot (finaliseKeeping s).trie }
  let b := p.rules.newBlock header [p.dapptx g] [] [receipt]
  { header := { b.header with nonce := g.nonce, mixDigest := g.mixhash }
    transactions := b.transactions }

/-- `ToBlock`, visiting the accounts in the given order.  The error stands for a nil block. -/
def toBlock (order : List (Address × GenesisAccount)) : Except (Fault Unit) GenesisBlock := do
  let s ← allocate order (StateDB.new fun _ => none)
  let (s, receipt, usedGas) ← p.install g (creator order) (endow order s)
  return p.assemble g s receipt usedGas

end GenesisRules

/-! ## `Commit` and `SetupGenesisBlock` -/

/-- The records of the database that `Commit` writes. -/
structure GenesisDb (Config : Type) where
  td : UInt64 × Hash → Option ℤ
  header : UInt64 × Hash → Option SealedHeader
  body : UInt64 × Hash → Option (List Transaction)
  receipts : UInt64 × Hash → Option (List Receipt)
  number : Hash → Option UInt64
  canonical : UInt64 → Option Hash
  headBlock : Option Hash
  headHeader : Option Hash
  config : Hash → Option Config

/-- The errors of `Commit`. -/
inductive GenesisError
  | noConfig
  | noBlock
  | numberNotZero
  | negativeDifficulty
  | mismatch (stored new : Hash)
  | incompatible (rewindTo : ℕ)
  deriving DecidableEq

namespace GenesisDb

def getCanonicalHash (db : GenesisDb Config) (number : UInt64) : Hash := (db.canonical number).getD 0

def getBlock (db : GenesisDb Config) (hash : Hash) (number : UInt64) : Option GenesisBlock :=
  (db.header (number, hash)).bind fun header =>
    (db.body (number, hash)).map fun transactions => ⟨header, transactions⟩

/-- The number of the head header. -/
def headNumber (db : GenesisDb Config) : ℕ :=
  (((db.number (db.headHeader.getD 0)).getD 0xffffffffffffffff)).toNat

end GenesisDb

/-- `WriteTd`: a nil difficulty is written as zero, a negative one not at all. -/
def encodeTd : Option ℤ → Except GenesisError ℤ
  | none => .ok 0
  | some d => if d < 0 then .error .negativeDifficulty else .ok d

namespace GenesisRules

variable (p : GenesisRules Config) (g : Genesis Config)

/-- The records of the block are written. -/
def write (db : GenesisDb Config) (td : ℤ) (b : GenesisBlock) : GenesisDb Config :=
  let hash := p.headerHash b.header
  { td := update db.td (0, hash) (some td)
    header := update db.header (0, hash) (some b.header)
    body := update db.body (0, hash) (some b.transactions)
    receipts := update db.receipts (0, hash) (some [])
    number := update db.number hash (some 0)
    canonical := update db.canonical 0 (some hash)
    headBlock := some hash
    headHeader := some hash
    config := update db.config hash (some (g.config.getD p.mainnetConfig)) }

/-- `Genesis.Commit`. -/
def commit (order : List (Address × GenesisAccount)) (db : GenesisDb Config) :
    Except (Fault GenesisError) (GenesisBlock × GenesisDb Config) := do
  let b ← mapErr (fun _ => GenesisError.noBlock) (p.toBlock g order)
  if b.header.number ≠ 0 then .error (.err .numberNotZero)
  else
    let td ← (encodeTd g.difficulty).mapError Fault.err
    return (b, p.write g db td b)

/-- The configuration is updated unless blocks would have to be rewound for it. -/
def configure (newcfg : Config) (stored : Hash) (db : GenesisDb Config) :
    Except (Fault GenesisError) (Config × Hash × GenesisDb Config) :=
  let written := { db with config := update db.config stored (some newcfg) }
  match db.config stored with
  | none => .ok (newcfg, stored, written)
  | some storedcfg =>
    match p.checkCompatible storedcfg newcfg db.headNumber with
    | none => .ok (newcfg, stored, written)
    | some rewindTo =>
      if db.headNumber ≠ 0 ∧ rewindTo ≠ 0 then .error (.err (.incompatible rewindTo))
      else .ok (newcfg, stored, written)

/-- The hash of a nil block is a crash; with an error of `Commit` the block is nil. -/
def setupGenesisBlock (genesis : Option (Genesis Config)) (order : List (Address × GenesisAccount))
    (db : GenesisDb Config) : Except (Fault GenesisError) (Config × Hash × GenesisDb Config) :=
  if genesis.any fun g => g.config.isNone then .error (.err .noConfig)
  else if db.getCanonicalHash 0 = 0 then
    let g := genesis.getD p.defaultGenesis
    match p.commit g order db with
    | .error _ => .error .panic
    | .ok (b, db) => .ok (g.config.getD p.mainnetConfig, p.headerHash b.header, db)
  else
    match genesis with
    | none => p.configure p.mainnetConfig (db.getCanonicalHash 0) db
    | some g =>
      match p.toBlock g order with
      | .error _ => .error .panic
      | .ok b =>
        if p.headerHash b.header ≠ db.getCanonicalHash 0 then
          .error (.err (.mismatch (db.getCanonicalHash 0) (p.headerHash b.header)))
        else p.configure (g.config.getD p.mainnetConfig) (db.getCanonicalHash 0) db

end GenesisRules

/-! ## The records of the genesis block -/

/-- The records of a head block. -/
structure HeadRecords where
  hash : Hash
  td : ℤ
  block : GenesisBlock
  receipts : List Receipt

/-- The records that the head block leads to. -/
def GenesisDb.headRecords (db : GenesisDb Config) : Option HeadRecords := do
  let hash ← db.headBlock
  let number ← db.number hash
  let td ← db.td (number, hash)
  let block ← db.getBlock hash number
  let receipts ← db.receipts (number, hash)
  return ⟨hash, td, block, receipts⟩

namespace GenesisRules

variable (p : GenesisRules Config) (g : Genesis Config) {order : List (Address × GenesisAccount)}

/-- The transactions that have changed the state whose root is in the header. -/
def installs : List Transaction := [p.dapptx g, p.dapptx1 g]

variable {p g} {b : GenesisBlock}

theorem commit_eq_ok {db db' : GenesisDb Config} (committed : p.commit g order db = .ok (b, db')) :
    p.toBlock g order = .ok b ∧ b.header.number = 0 ∧
      ∃ td, encodeTd g.difficulty = .ok td ∧ db' = p.write g db td b := by
  obtain ⟨b', made, rest⟩ := bind_eq_ok.1 committed
  have made' : p.toBlock g order = .ok b' := by
    cases block : p.toBlock g order with
    | error e => cases e <;> exact nomatch block ▸ made
    | ok b => rw [block] at made; exact congrArg _ (Except.ok.inj made)
  split_ifs at rest with number
  obtain ⟨td, encoded, written⟩ := bind_eq_ok.1 rest
  obtain ⟨rfl, rfl⟩ := Prod.mk.inj (Except.ok.inj written)
  refine ⟨made', not_not.1 number, td, ?_, rfl⟩
  cases e : encodeTd g.difficulty with
  | error e => exact nomatch e ▸ encoded
  | ok td => rw [e] at encoded; exact congrArg _ (Except.ok.inj encoded)

theorem headRecords_write (db : GenesisDb Config) (td : ℤ) (b : GenesisBlock) :
    (p.write g db td b).headRecords = some ⟨p.headerHash b.header, td, b, []⟩ := by
  simp [GenesisDb.headRecords, GenesisDb.getBlock, write]

theorem toBlock_eq_assemble (made : p.toBlock g order = .ok b) :
    ∃ s receipt usedGas, b = p.assemble g s receipt usedGas := by
  obtain ⟨s, -, rest⟩ := bind_eq_ok.1 made
  obtain ⟨⟨t, receipt, used⟩, -, assembled⟩ := bind_eq_ok.1 rest
  exact ⟨t, receipt, used, (Except.ok.inj assembled).symm⟩

theorem encodeTd_eq_iff {td : ℤ} (encoded : encodeTd g.difficulty = .ok td) :
    td = g.head.difficulty ↔ g.difficulty ≠ none := by
  unfold encodeTd at encoded
  unfold Genesis.head
  cases difficulty : g.difficulty with
  | none =>
    rw [difficulty] at encoded
    obtain rfl := Except.ok.inj encoded
    simp [genesisDifficulty]
  | some d =>
    simp only [difficulty] at encoded
    split_ifs at encoded
    obtain rfl := Except.ok.inj encoded
    simp

/-- The total difficulty is that of the header exactly if the specification has one.  The receipts
never derive the receipt root, and the second creation is missing from the body. -/
theorem commit_consistent_iff {order : List (Address × GenesisAccount)} {db db' : GenesisDb Config}
    {b : GenesisBlock} (committed : p.commit g order db = .ok (b, db'))
    (root : ∀ item, p.rules.codec.deriveSha [item] ≠ p.rules.codec.deriveSha []) :
    ∃ r, db'.headRecords = some r ∧ db'.getCanonicalHash 0 = r.hash ∧
      p.headerHash r.block.header = r.hash ∧
      p.rules.codec.deriveSha (r.block.transactions.map p.rules.codec.encodeTransaction) =
        r.block.header.txHash ∧ (r.td = r.block.header.difficulty ↔ g.difficulty ≠ none) ∧
      p.rules.codec.receiptsSha r.receipts ≠ r.block.header.receiptHash ∧
      ¬∀ tx ∈ p.installs g, tx ∈ r.block.transactions := by
  obtain ⟨made, -, td, encoded, rfl⟩ := commit_eq_ok committed
  obtain ⟨s, receipt, usedGas, rfl⟩ := toBlock_eq_assemble made
  refine ⟨_, headRecords_write _ _ _, ?_, rfl, rfl, encodeTd_eq_iff encoded, (root _).symm,
    fun all => ?_⟩
  · simp [GenesisDb.getCanonicalHash, write]
  · have second : p.dapptx1 g ∈ [p.dapptx g] := all _ (by simp [installs])
    have nonces := congrArg Transaction.nonce (List.mem_singleton.1 second)
    exact absurd nonces (by simp [dapptx, dapptx1, newContractCreation])

/-- The nonce in the trie. -/
def nonceAt (trie : Address → Option StateObject) (a : Address) : UInt64 :=
  ((trie a).map (·.nonce)).getD 0

/-- A call only raises the nonce of the sender. -/
def countingEvm : Evm where
  call _ msg objects _ gas :=
    ⟨[.setNonce msg.sender (((objects msg.sender).map (·.nonce)).getD 0 + 1)], gas, none⟩
  gas_le _ _ _ _ _ := le_rfl
  unchanged _ _ _ _ _ h := nomatch h

/-- Rules with this EVM. -/
def countingRules : GenesisRules Unit where
  rules :=
    { codec :=
        { headerHash := fun _ => 0
          calcUncleHash := fun _ => 0
          encodeTransaction := fun _ => []
          encodeReceipt := fun _ => []
          deriveSha := fun items => BitVec.ofNat 256 items.length
          trieRoot := fun trie => (nonceAt trie 1).toBitVec.setWidth 256
          createAddress := fun a _ => a
          bloomAddress := fun _ => 0
          bloomTopic := fun _ => 0 }
      evm := countingEvm
      isByzantium := fun _ => true }
  dappCode := [1]
  dappCode_lt := by decide
  ballotCode := [2]
  ballotCode_lt := by decide
  creationHash nonce _ _ := nonce.toBitVec.setWidth 256
  headerHash header := header.root + 1
  mainnetConfig := ()
  defaultGenesis :=
    { config := some (), nonce := 0, timestamp := 0, extraData := [], gasLimit := 0, difficulty := none,
      mixhash := 0, coinbase := 0, alloc := [], number := 0, gasUsed := 0, parentHash := 0,
      nodup := .nil }
  checkCompatible _ _ _ := none

/-- An account that can pay. -/
def wealthy : GenesisAccount := ⟨some 1000000000000000000, [], 0, [], .nil⟩

/-- Two wealthy accounts. -/
def pairGenesis : Genesis Unit where
  config := some ()
  nonce := 66
  timestamp := 0
  extraData := []
  gasLimit := 0
  difficulty := none
  mixhash := 0
  coinbase := 7
  alloc := [(1, wealthy), (2, wealthy)]
  number := 0
  gasUsed := 0
  parentHash := 0
  nodup := by decide

/-- No records. -/
def emptyDb : GenesisDb Unit :=
  ⟨fun _ => none, fun _ => none, fun _ => none, fun _ => none, fun _ => none, fun _ => none, none, none,
    fun _ => none⟩

theorem pair_committed :
    ((countingRules.commit pairGenesis pairGenesis.alloc emptyDb).toOption.bind fun r =>
      r.2.headRecords.map fun r => (r.td, r.block.header.difficulty, r.receipts.length,
        r.block.header.receiptHash, r.block.transactions.map (·.nonce))) =
      some (0, 131072, 0, 1, [0]) := by
  decide +kernel

theorem pair_records : ∃ b db', countingRules.commit pairGenesis pairGenesis.alloc emptyDb =
    .ok (b, db') ∧ ∃ r, db'.headRecords = some r ∧ db'.getCanonicalHash 0 = r.hash ∧
      r.td ≠ r.block.header.difficulty := by
  cases committed : countingRules.commit pairGenesis pairGenesis.alloc emptyDb with
  | error e =>
    have accepted : (countingRules.commit pairGenesis pairGenesis.alloc emptyDb).isOk = true := by
      decide +kernel
    rw [committed] at accepted
    exact nomatch accepted
  | ok r =>
    obtain ⟨records, stored, canonical, -, -, difficulty, -, -⟩ := commit_consistent_iff committed
      (fun _ => show BitVec.ofNat 256 1 ≠ BitVec.ofNat 256 0 by decide)
    exact ⟨r.1, r.2, rfl, records, stored, canonical, fun same => difficulty.1 same rfl⟩

end GenesisRules

end JuChain.Engine
