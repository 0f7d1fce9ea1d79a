import JuChain.Engine.Agreement

/-!
# The blocks of a DApp chain

`TxPool.reset` packages the transactions of a DApp into a block whose header is a copy of the
head's. `NewBlock` gets no receipts, so that no such block is ever accepted (`dapp_block_refused`).
-/

namespace JuChain.Engine

open State Option Except

variable {b : FullBlock} {x : Processed} {rules : Rules}

namespace Rules

variable (rules : Rules)

/-- The header of `reset`: everything that is not set here is the parent's. -/
def dappHeader (dappId : Address) (parent : Header) : Header :=
  { parent with
    dappID := dappId
    parentHash := rules.codec.headerHash parent
    number := parent.number + 1 }

/-- The block that is made of DApp transactions. -/
def dappBlock (dappId : Address) (parent : Header) (dapptxs : List Transaction) : FullBlock :=
  rules.newBlock (rules.dappHeader dappId parent) dapptxs [] []

end Rules

/-! ## Inserting a block on the head -/

/-- A chain whose head has its state. -/
structure InsertingChain (rules : Rules) extends HeadedChain rules.codec.headerHash where
  headState : StateDB
  /-- `HasState`. -/
  hasState : Hash → Bool
  /-- `ModeFullFake`: `VerifyHeaders` accepts every header. -/
  fullFake : Bool

/-- The errors of an insertion. -/
inductive InsertError
  | header (e : HeaderError)
  | uncles (e : UncleError)
  | uncleHash (actual want : Hash)
  | txHash (actual want : Hash)
  | tx (e : TxError)
  | state (e : StateError)
  deriving DecidableEq

/-- What an insertion returns for a written block. -/
inductive InsertStatus
  | canonical
  | side
  deriving DecidableEq

namespace InsertingChain

variable {rules : Rules} (chain : InsertingChain rules)

/-- `VerifyHeaders` for one header. -/
def verifyHeaders (now : Clock) (header : Header) : Except InsertError Unit :=
  if chain.fullFake then .ok ()
  else if (chain.getBlock (rules.codec.headerHash header) header.number).isSome then .ok ()
  else (verifyHeader now header chain.currentBlock.header false true).mapError .header

/-- For a block on the head.  A known block is let through. -/
def validateBody (now : Clock) (b : FullBlock) : Except InsertError Unit :=
  if (chain.getBlock (rules.codec.headerHash b.header) b.number).isSome ∧
    chain.hasState b.header.root then
    .ok ()
  else do
    (verifyUncles now chain.toChainReader b.toBlock).mapError .uncles
    if rules.codec.calcUncleHash b.uncles ≠ b.header.uncleHash then
      .error (.uncleHash (rules.codec.calcUncleHash b.uncles) b.header.uncleHash)
    else if rules.codec.deriveSha (b.transactions.map rules.codec.encodeTransaction) ≠
      b.header.txHash then
      .error (.txHash (rules.codec.deriveSha (b.transactions.map rules.codec.encodeTransaction))
        b.header.txHash)
    else .ok ()

/-- `insertChain` with one block on the head; `none` is a panic of the gas pool.
`WriteBlockWithState` replaces the head if the block adds to the total difficulty. -/
def insertBlock (now : Clock) (b : FullBlock) : Option (Except InsertError InsertStatus) :=
  match chain.verifyHeaders now b.header with
  | .error e => some (.error e)
  | .ok _ => match chain.validateBody now b with
    | .error e => some (.error e)
    | .ok _ => (rules.process b chain.headState).map fun processed =>
      match processed with
      | .error e => .error (.tx e)
      | .ok x => match rules.validateState b x with
        | .error e => .error (.state e)
        | .ok _ => .ok (if 0 < b.header.difficulty then .canonical else .side)

end InsertingChain

/-! ## What is executed leaves a receipt -/

section Receipts

variable {rules : Rules} {block : Hash} {header : Header}

theorem length_processTransaction {i : ℕ} {x y : Executed} {tx : Transaction}
    (ran : rules.processTransaction block header i x tx = some (.ok y)) :
    y.receipts.length = x.receipts.length + 1 := by
  obtain ⟨r, -, hr⟩ := map_eq_some_iff.1 ran
  cases hresult : r.result with
  | error e =>
    rw [hresult] at hr
    exact nomatch hr
  | ok value =>
    rw [hresult] at hr
    obtain rfl := ok.inj hr
    simp

theorem length_processFrom {i : ℕ} {x y : Executed} {txs : List Transaction}
    (ran : rules.processFrom block header i x txs = some (.ok y)) :
    y.receipts.length = x.receipts.length + txs.length := by
  induction txs generalizing i x with
  | nil =>
    obtain rfl := ok.inj (some.inj ran)
    rfl
  | cons tx rest ih =>
    obtain ⟨z, first, later⟩ := bind_eq_some_iff.1 ran
    cases z with
    | error e => exact nomatch later
    | ok z =>
      rw [ih later, length_processTransaction first, List.length_cons]
      omega

theorem length_receipts_process {s : StateDB}
    (ran : rules.process b s = some (.ok x)) : x.receipts.length = b.transactions.length := by
  obtain ⟨y, hy, mapped⟩ := map_eq_some_iff.1 ran
  cases y with
  | error e => exact nomatch mapped
  | ok y =>
    obtain rfl := ok.inj mapped
    simpa using length_processFrom hy

end Receipts

theorem validateState_eq_ok_iff : rules.validateState b x = .ok () ↔
      b.header.gasUsed = x.usedGas ∧ rules.codec.createBloom x.receipts = b.header.bloom ∧
        rules.codec.receiptsSha x.receipts = b.header.receiptHash ∧
        b.header.root = (rules.codec.intermediateRoot x.state).2 := by
  unfold Rules.validateState
  simp only [Slices.ite_error_eq_ok_iff, ne_eq, not_not, and_true]

namespace InsertingChain

variable {rules : Rules} (chain : InsertingChain rules)

/-- The copied header passes, and the head's gas, bloom and root are those of executing only the
rewards. -/
structure AcceptsEmpty (now : Clock) (dappId : Address) : Prop where
  header : chain.verifyHeaders now (rules.dappBlock dappId chain.currentBlock.header []).header = .ok ()
  difficulty : 0 < chain.currentBlock.header.difficulty
  gasUsed : chain.currentBlock.header.gasUsed = 0
  bloom : chain.currentBlock.header.bloom = 0
  root : chain.currentBlock.header.root = (rules.codec.intermediateRoot
    (rules.finalize chain.headState (rules.dappBlock dappId chain.currentBlock.header []).header
      []).1).2

variable {chain} {now : Clock} {dappId : Address} {dapptxs : List Transaction}

theorem insertBlock_eq_canonical : chain.insertBlock now b = some (.ok .canonical) ↔
      chain.verifyHeaders now b.header = .ok () ∧ chain.validateBody now b = .ok () ∧
        ∃ x, rules.process b chain.headState = some (.ok x) ∧ rules.validateState b x = .ok () ∧
          0 < b.header.difficulty := by
  unfold insertBlock
  cases hheader : chain.verifyHeaders now b.header with
  | error e => simp
  | ok _ =>
    cases hbody : chain.validateBody now b with
    | error e => simp
    | ok _ =>
      simp only [true_and, map_eq_some_iff]
      constructor
      · rintro ⟨processed, ran, accepted⟩
        cases processed with
        | error e => exact nomatch accepted
        | ok x =>
          cases hstate : rules.validateState b x with
          | error e =>
            simp only [hstate] at accepted
            exact nomatch accepted
          | ok _ =>
            simp only [hstate] at accepted
            refine ⟨x, ran, hstate, ?_⟩
            by_contra zero
            rw [if_neg zero] at accepted
            exact nomatch accepted
      · rintro ⟨x, ran, hstate, difficulty⟩
        refine ⟨.ok x, ran, ?_⟩
        simp only [hstate, if_pos difficulty]

theorem validateBody_dappBlock (uncles : rules.codec.calcUncleHash [] = emptyUncleHash)
    (parent : Header) :
    chain.validateBody now (rules.dappBlock dappId parent dapptxs) = .ok () := by
  unfold validateBody
  by_cases known : (chain.getBlock
    (rules.codec.headerHash (rules.dappBlock dappId parent dapptxs).header)
      (rules.dappBlock dappId parent dapptxs).number).isSome ∧
      chain.hasState (rules.dappBlock dappId parent dapptxs).header.root
  · rw [if_pos known]
  · rw [if_neg known]
    have none : verifyUncles now chain.toChainReader
      (rules.dappBlock dappId parent dapptxs).toBlock = .ok () :=
      rfl
    have uncleHash : rules.codec.calcUncleHash (rules.dappBlock dappId parent dapptxs).uncles =
        (rules.dappBlock dappId parent dapptxs).header.uncleHash := uncles
    have txHash : rules.codec.deriveSha ((rules.dappBlock dappId parent dapptxs).transactions.map
        rules.codec.encodeTransaction) = (rules.dappBlock dappId parent dapptxs).header.txHash := rfl
    rw [none, uncleHash, txHash, if_neg (not_not.2 rfl), if_neg (not_not.2 rfl)]
    rfl

end InsertingChain

theorem dapp_block_becomes_head_iff (chain : InsertingChain rules) (now : Clock)
    (dappId : Address) (dapptxs : List Transaction)
    (uncles : rules.codec.calcUncleHash [] = emptyUncleHash)
    (told : ∀ receipts ≠ [], rules.codec.receiptsSha receipts ≠ rules.codec.receiptsSha []) :
    chain.insertBlock now (rules.dappBlock dappId chain.currentBlock.header dapptxs) =
        some (.ok .canonical) ↔ dapptxs = [] ∧ chain.AcceptsEmpty now dappId := by
  rw [InsertingChain.insertBlock_eq_canonical,
    and_iff_right (InsertingChain.validateBody_dappBlock uncles _)]
  have nothing : rules.process (rules.dappBlock dappId chain.currentBlock.header []) chain.headState =
      some (.ok ⟨(rules.finalize chain.headState
        (rules.dappBlock dappId chain.currentBlock.header []).header []).1, [], [], 0⟩) := rfl
  constructor
  · rintro ⟨header, x, ran, valid, difficulty⟩
    obtain ⟨gasUsed, bloom, receiptHash, root⟩ := validateState_eq_ok_iff.1 valid
    -- The header claims the receipts of an empty block.
    have empty : x.receipts = [] := by
      by_contra some
      exact told _ some receiptHash
    have length := length_receipts_process ran
    rw [empty] at length
    obtain rfl : dapptxs = [] := List.length_eq_zero_iff.1 length.symm
    obtain rfl := ok.inj (some.inj ran)
    exact ⟨rfl, header, difficulty, gasUsed, bloom.symm, root⟩
  · rintro ⟨rfl, header, difficulty, gasUsed, bloom, root⟩
    exact ⟨header, _, nothing, validateState_eq_ok_iff.2 ⟨gasUsed, bloom.symm, rfl, root⟩, difficulty⟩

/-- A block with DApp transactions never becomes the head. -/
theorem dapp_block_refused {rules : Rules} (chain : InsertingChain rules) (now : Clock)
    (dappId : Address) (dapptxs : List Transaction) (some : dapptxs ≠ [])
    (uncles : rules.codec.calcUncleHash [] = emptyUncleHash)
    (told : ∀ receipts ≠ [], rules.codec.receiptsSha receipts ≠ rules.codec.receiptsSha []) :
    chain.insertBlock now (rules.dappBlock dappId chain.currentBlock.header dapptxs) ≠
      .some (.ok .canonical) := by
  intro accepted
  exact some ((dapp_block_becomes_head_iff chain now dappId dapptxs uncles told).1 accepted).1

/-! ## Samples -/

/-- Rules that tell empty lists of transactions from others. -/
def tellingRules : Rules :=
  { sampleRules with
    codec := { sampleRules.codec with
      calcUncleHash := fun _ => emptyUncleHash
      deriveSha := fun items => if items = [] then 0 else 1 } }

/-- A chain with a full head block. -/
def sampleDAppChain : InsertingChain tellingRules where
  toHeadedChain := headOnly { childOf sampleGenesis 10 with gasLimit := 50000, gasUsed := 21000 }
    (by decide)
  headState := Message.sampleState
  hasState := fun _ => true
  fullFake := false

/-- A transfer. -/
def sampleTransfer : Transaction where
  hash := 5
  sender := some 1
  nonce := 0
  gasPrice := 2
  gas := 30000
  recipient := some 2
  value := 5
  data := []
  data_lt := Message.no_data_lt

theorem sample_dapp_block_not_head : sampleDAppChain.insertBlock ⟨20, by norm_num⟩
      (tellingRules.dappBlock 9 sampleDAppChain.currentBlock.header [sampleTransfer]) ≠
        some (.ok .canonical) := by
  have told : ∀ receipts ≠ [],
      tellingRules.codec.receiptsSha receipts ≠ tellingRules.codec.receiptsSha [] := by
    intro receipts some
    cases receipts with
    | nil => exact absurd rfl some
    | cons r rest => exact show (1 : Hash) ≠ 0 by decide
  exact dapp_block_refused sampleDAppChain ⟨20, by norm_num⟩ 9 [sampleTransfer] nofun rfl told

/-- The block of one transfer on a head that used as much gas: only the receipts are wrong. -/
theorem sample_receipts_refused : sampleDAppChain.insertBlock ⟨20, by norm_num⟩
      (tellingRules.dappBlock 9 sampleDAppChain.currentBlock.header [sampleTransfer]) =
        some (.error (.state (.receiptHash 0 1))) := by
  rfl

end JuChain.Engine
