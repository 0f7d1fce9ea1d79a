import JuChain.Core.Types
import JuChain.Lib.Slices
import JuChain.Lib.Runs

/-!
# Header verification

`DElection.verifyHeader` and the difficulty rule `calcDifficultyByzantium` of `consensus/dpos`.  A
header that carries a DApp id is let through whatever difficulty it claims.
-/

namespace JuChain.Engine

/-- A bloom filter. -/
abbrev Bloom := ℕ

/-- `types.Header`, but for the fields of the proof-of-work seal and of DApp chains. -/
structure Header extends JuChain.Header where
  uncleHash : Hash
  coinbase : Address
  root : Hash
  txHash : Hash
  receiptHash : Hash
  bloom : Bloom
  gasLimit : UInt64
  gasUsed : UInt64
  extra : Bytes
  dappID : Address
  deriving DecidableEq

variable {parent : Header}

/-- `time.Now().Unix()`, which stays far below `2 ^ 62`. -/
structure Clock where
  unix : ℕ
  bound : unix < 2 ^ 62

/-- `big.Int.Uint64`: the low word of the magnitude. -/
def bigUint64 (x : ℤ) : UInt64 := UInt64.ofNat x.natAbs

theorem bigUint64_toNat {x : ℤ} (h₀ : 0 ≤ x) (h : x < 2 ^ 64) : ((bigUint64 x).toNat : ℤ) = x := by
  unfold bigUint64
  rw [UInt64.toNat_ofNat', Nat.mod_eq_of_lt (by omega)]
  omega

/-- `types.EmptyUncleHash`, the hash of an empty uncle list. -/
def emptyUncleHash : Hash :=
  0x1dcc4de8dec75d7aab85b567b6ccd41ad312451b948a7413f0a142fd40d49347#256

/-- No DApp. -/
def emptyDAppId : Address := 0

def maximumExtraDataSize : ℕ := 32

def allowedFutureBlockTime : ℤ := 15

def maxBig256 : ℤ := 2 ^ 256 - 1

def gasLimitBoundDivisor : UInt64 := 1024

def minGasLimit : UInt64 := 5000

/-- The bound `2^63-1` of `verifyHeader` on gas limits. -/
def maxGasLimit : UInt64 := 0x7fffffffffffffff

def difficultyBoundDivisor : ℤ := 2048

def minimumDifficulty : ℤ := 131072

def expDiffPeriod : ℕ := 100000

/-- The parent's difficulty moved by at most 99 of its 2048ths. -/
def adjustedDifficulty (time : ℤ) (parent : Header) : ℤ :=
  let x := (time - parent.time) / 9
  let x := if parent.uncleHash = emptyUncleHash then 1 - x else 2 - x
  let x := if x < -99 then -99 else x
  let x := parent.difficulty + parent.difficulty / difficultyBoundDivisor * x
  if x < minimumDifficulty then minimumDifficulty else x

/-- The exponential factor counts from a block number three million lower. -/
def periodCount (parent : Header) : ℕ :=
  (if 2999999 ≤ parent.number then parent.number - 2999999 else 0) / expDiffPeriod

/-- The difficulty with the exponential factor. -/
def difficultyAt (time : ℤ) (parent : Header) : ℤ :=
  if 1 < periodCount parent then adjustedDifficulty time parent + 2 ^ (periodCount parent - 2)
  else adjustedDifficulty time parent

/-- `DElection.CalcDifficulty`, which takes the time as a machine word. -/
def calcDifficulty (time : UInt64) (parent : Header) : ℤ := difficultyAt time.toNat parent

theorem minimumDifficulty_le_adjusted (time : ℤ) (parent : Header) :
    minimumDifficulty ≤ adjustedDifficulty time parent := by
  have floor (x : ℤ) :
      minimumDifficulty ≤ if x < minimumDifficulty then minimumDifficulty else x := by
    split_ifs with h
    · exact le_rfl
    · exact not_lt.1 h
  exact floor _

theorem minimumDifficulty_le (time : ℤ) (parent : Header) :
    minimumDifficulty ≤ difficultyAt time parent := by
  have hmin := minimumDifficulty_le_adjusted time parent
  unfold difficultyAt
  split_ifs
  · have : (0 : ℤ) ≤ 2 ^ (periodCount parent - 2) := by positivity
    omega
  · exact hmin

/-! ## `verifyHeader` -/

/-- The errors of `verifyHeader`. -/
inductive HeaderError
  | extraDataTooLong (length : ℕ)
  | largeBlockTime
  | futureBlock
  | zeroBlockTime
  | invalidDifficulty (actual want : ℤ)
  | gasLimitAboveMaximum (actual : UInt64)
  | invalidGasUsed (actual gasLimit : UInt64)
  | invalidGasLimit (actual parent bound : UInt64)
  | invalidNumber
  | nonPositiveDifficulty
  deriving DecidableEq

/-- The distance of two gas limits as `verifyHeader` computes it. -/
def gasLimitGap (parent header : UInt64) : UInt64 :=
  let diff := parent.toInt64 - header.toInt64
  (if diff < 0 then diff * -1 else diff).toUInt64

def verifySeal (header : Header) : Except HeaderError Unit :=
  if header.difficulty ≤ 0 then .error .nonPositiveDifficulty else .ok ()

/-- `DElection.verifyHeader` at a verifier whose clock shows `now`. -/
def verifyHeader (now : Clock) (header parent : Header) (uncle withSeal : Bool) :
    Except HeaderError Unit :=
  if maximumExtraDataSize < header.extra.length then
    .error (.extraDataTooLong header.extra.length)
  else if uncle = true ∧ maxBig256 < header.time then
    .error .largeBlockTime
  else if uncle = false ∧ now.unix + allowedFutureBlockTime < header.time then
    .error .futureBlock
  else if header.time < parent.time then
    .error .zeroBlockTime
  -- The comparison is made for headers without a DApp id only.
  else if header.dappID = emptyDAppId ∧
      calcDifficulty (bigUint64 header.time) parent ≠ header.difficulty then
    .error (.invalidDifficulty header.difficulty (calcDifficulty (bigUint64 header.time) parent))
  else if maxGasLimit < header.gasLimit then
    .error (.gasLimitAboveMaximum header.gasLimit)
  else if header.gasLimit < header.gasUsed then
    .error (.invalidGasUsed header.gasUsed header.gasLimit)
  else if parent.gasLimit / gasLimitBoundDivisor ≤ gasLimitGap parent.gasLimit header.gasLimit ∨
      header.gasLimit < minGasLimit then
    .error (.invalidGasLimit header.gasLimit parent.gasLimit
      (parent.gasLimit / gasLimitBoundDivisor))
  else if (header.number : ℤ) - parent.number ≠ 1 then
    .error .invalidNumber
  else if withSeal then verifySeal header
  else .ok ()

/-- What `verifyHeader` demands of a header, check by check. -/
structure Acceptable (now : Clock) (header parent : Header) (uncle withSeal : Bool) : Prop where
  extra : header.extra.length ≤ maximumExtraDataSize
  time : header.time ≤ if uncle then maxBig256 else now.unix + allowedFutureBlockTime
  after : parent.time ≤ header.time
  difficulty : header.dappID = emptyDAppId →
    header.difficulty = calcDifficulty (bigUint64 header.time) parent
  limit : header.gasLimit ≤ maxGasLimit
  used : header.gasUsed ≤ header.gasLimit
  gap : gasLimitGap parent.gasLimit header.gasLimit < parent.gasLimit / gasLimitBoundDivisor
  minimum : minGasLimit ≤ header.gasLimit
  number : header.number = parent.number + 1
  positive : withSeal = true → 0 < header.difficulty

theorem verifyHeader_eq_ok_iff {now : Clock} {header : Header} {uncle withSeal : Bool} :
    verifyHeader now header parent uncle withSeal = .ok () ↔
      Acceptable now header parent uncle withSeal := by
  have seal_ok : (if withSeal = true then verifySeal header else .ok ()) = .ok () ↔
      (withSeal = true → 0 < header.difficulty) := by
    unfold verifySeal
    cases withSeal <;> simp
  unfold verifyHeader
  simp only [Slices.ite_error_eq_ok_iff, seal_ok]
  constructor
  · rintro ⟨extra, large, future, zero, difficulty, limit, used, gap, number, positive⟩
    rw [not_or] at gap
    refine ⟨not_lt.1 extra, ?_, not_lt.1 zero, ?_, UInt64.not_lt.1 limit, UInt64.not_lt.1 used,
      UInt64.not_le.1 gap.1, UInt64.not_lt.1 gap.2, by omega, positive⟩
    · cases uncle
      · exact not_lt.1 fun h => future ⟨rfl, h⟩
      · exact not_lt.1 fun h => large ⟨rfl, h⟩
    · intro empty
      by_contra h
      exact difficulty ⟨empty, Ne.symm h⟩
  · rintro ⟨extra, time, after, difficulty, limit, used, gap, minimum, number, positive⟩
    refine ⟨not_lt.2 extra, ?_, ?_, not_lt.2 after, ?_, UInt64.not_lt.2 limit,
      UInt64.not_lt.2 used, ?_, by omega, positive⟩
    · rintro ⟨rfl, h⟩
      exact not_lt.2 time h
    · rintro ⟨rfl, h⟩
      exact not_lt.2 time h
    · rintro ⟨empty, h⟩
      exact h (difficulty empty).symm
    · exact not_or.2 ⟨UInt64.not_le.2 gap, UInt64.not_lt.2 minimum⟩

/-! ## Chains of accepted headers -/

/-- A header that arrives. -/
structure Arrival where
  now : Clock
  header : Header
  withSeal : Bool

variable {a : Arrival}

/-- The chain grows by the headers that pass verification on its last one. -/
def extend (head : Header) (a : Arrival) : Option Header :=
  match verifyHeader a.now a.header head false a.withSeal with
  | .ok _ => some a.header
  | .error _ => none

theorem extend_eq_some_iff {head next : Header} : extend head a = some next ↔
      Acceptable a.now a.header head false a.withSeal ∧ a.header = next := by
  rw [← verifyHeader_eq_ok_iff]
  unfold extend
  cases h : verifyHeader a.now a.header head false a.withSeal with
  | error e | ok u => simp

/-- The difficulty of the header is that of the rule for its time. -/
def ByRule (parent : Header) (a : Arrival) : Prop :=
  a.header.difficulty = difficultyAt a.header.time parent

/-- The difficulty the rule allows the headers to add to the chain. -/
def allowance : Header → List Arrival → ℤ
  | _, [] => 0
  | parent, a :: rest => difficultyAt a.header.time parent + allowance a.header rest

theorem Acceptable.time_bounds
    (h : Acceptable a.now a.header parent false a.withSeal) (origin : 0 ≤ parent.time) :
    0 ≤ a.header.time ∧ a.header.time < 2 ^ 64 := by
  have hbound := a.now.bound
  have htime := h.time
  have hafter := h.after
  simp only [Bool.false_eq_true, if_false, allowedFutureBlockTime] at htime
  constructor <;> omega

theorem Acceptable.byRule (h : Acceptable a.now a.header parent false a.withSeal)
    (origin : 0 ≤ parent.time) (main : a.header.dappID = emptyDAppId) : ByRule parent a := by
  obtain ⟨h₀, h₁⟩ := h.time_bounds origin
  unfold ByRule
  rw [h.difficulty main, calcDifficulty, bigUint64_toNat h₀ h₁]

theorem byRule_of_run {genesis head : Header} {arrivals : List Arrival}
    (origin : 0 ≤ genesis.time) (ran : Runs.run extend genesis arrivals = some head)
    (main : ∀ a ∈ arrivals, a.header.dappID = emptyDAppId) :
    Runs.Throughout extend ByRule genesis arrivals ∧
      (arrivals.map (·.header.difficulty)).sum = allowance genesis arrivals := by
  induction arrivals generalizing genesis with
  | nil => exact ⟨trivial, rfl⟩
  | cons a rest ih =>
    rw [Runs.run_cons, Option.bind_eq_some_iff] at ran
    obtain ⟨next, hnext, ran⟩ := ran
    obtain ⟨accepted, rfl⟩ := extend_eq_some_iff.1 hnext
    have rule := accepted.byRule origin (main a List.mem_cons_self)
    obtain ⟨hrest, hsum⟩ := ih (accepted.time_bounds origin).1 ran
      fun b hb => main b (List.mem_cons_of_mem a hb)
    constructor
    · refine ⟨rule, fun t ht => ?_⟩
      rw [hnext] at ht
      exact Option.some.inj ht ▸ hrest
    · rw [List.map_cons, List.sum_cons, hsum, allowance, ← rule]

/-! ## A DApp id switches the rule off -/

/-- A genesis header. -/
def sampleGenesis : Header where
  parentHash := 0
  difficulty := 131072
  number := 0
  time := 0
  round := 0
  presidentId := []
  uncleHash := emptyUncleHash
  coinbase := 0
  root := 0
  txHash := 0
  receiptHash := 0
  bloom := 0
  gasLimit := 5000
  gasUsed := 0
  extra := []
  dappID := 0

/-- A clock. -/
def sampleClock : Clock := ⟨100, by norm_num⟩

/-- A header of a DApp that claims a high difficulty. -/
def claiming (id : Address) : Arrival where
  now := sampleClock
  header := { sampleGenesis with number := 1, time := 10, difficulty := 2 ^ 200, dappID := id }
  withSeal := true

theorem claiming_accepted {id : Address} (h : id ≠ emptyDAppId) :
    Runs.run extend sampleGenesis [claiming id] = some (claiming id).header := by
  have accepted : Acceptable (claiming id).now (claiming id).header sampleGenesis false true :=
    { extra := Nat.zero_le 32
      time := show (10 : ℤ) ≤ 100 + 15 by decide
      after := show (0 : ℤ) ≤ 10 by decide
      difficulty := fun h' => absurd h' h
      limit := show (5000 : UInt64) ≤ maxGasLimit by decide
      used := show (0 : UInt64) ≤ 5000 by decide
      gap := show gasLimitGap 5000 5000 < 5000 / gasLimitBoundDivisor by decide
      minimum := show minGasLimit ≤ 5000 by decide
      number := rfl
      positive := fun _ => show (0 : ℤ) < 2 ^ 200 by decide }
  rw [Runs.run_cons, extend_eq_some_iff.2 ⟨accepted, rfl⟩]
  rfl

theorem claiming_not_byRule (id : Address) : ¬ByRule sampleGenesis (claiming id) := by
  show (2 : ℤ) ^ 200 ≠ difficultyAt 10 sampleGenesis
  decide

/-- Chains with no other DApp ids than those in `ids` follow the rule exactly when `ids` has no id
but the zero one. -/
theorem difficulty_rule_iff (ids : Set Address) : (∀ genesis head arrivals, 0 ≤ genesis.time →
      Runs.run extend genesis arrivals = some head → (∀ a ∈ arrivals, a.header.dappID ∈ ids) →
        Runs.Throughout extend ByRule genesis arrivals ∧
          (arrivals.map (·.header.difficulty)).sum ≤ allowance genesis arrivals) ↔
      ∀ id ∈ ids, id = emptyDAppId := by
  constructor
  · intro rule id hid
    by_contra h
    obtain ⟨follows, -⟩ := rule sampleGenesis (claiming id).header [claiming id] le_rfl
      (claiming_accepted h) fun a ha => by
        rw [List.mem_singleton.1 ha]
        exact hid
    exact claiming_not_byRule id follows.1
  · intro main genesis head arrivals origin ran hids
    obtain ⟨follows, hsum⟩ := byRule_of_run origin ran fun a ha => main _ (hids a ha)
    exact ⟨follows, hsum.le⟩

/-- A header with a DApp id is accepted and adds far more difficulty than the rule allows. -/
theorem dappID_disables_difficulty :
    Runs.run extend sampleGenesis [claiming 1] = some (claiming 1).header ∧
      ¬ByRule sampleGenesis (claiming 1) ∧
      allowance sampleGenesis [claiming 1] < (claiming 1).header.difficulty :=
  ⟨claiming_accepted (by decide), claiming_not_byRule 1, by decide⟩

end JuChain.Engine
