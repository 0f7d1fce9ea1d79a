import JuChain.Engine.Header
import JuChain.Lib.Word

/-!
# The gas limit and the time stamp of a new header

`CalcGasLimit` and the part of `GenerateNewBlock` that fills in a header, with `Prepare`.  On a
parent that passed verification none of the operations on machine words wraps
(`gasLimit_steps_fit`). `CalcGasLimit` does not look at the upper bound `2^63-1` of `verifyHeader`,
nor `GenerateNewBlock` at the 15 seconds that a time stamp may lie ahead.
-/

namespace JuChain.Engine

open UInt64

variable {parent : Header}

/-! ## `CalcGasLimit` -/

/-- `contrib` of `CalcGasLimit`. -/
def contrib (parent : Header) : UInt64 :=
  (parent.gasUsed + parent.gasUsed / 2) / gasLimitBoundDivisor

/-- `decay` of `CalcGasLimit`. -/
def decay (parent : Header) : UInt64 := parent.gasLimit / gasLimitBoundDivisor - 1

/-- `CalcGasLimit`, with the value the node has in `config.TargetGasLimit`. -/
def calcGasLimit (target : UInt64) (parent : Header) : UInt64 :=
  let limit := parent.gasLimit - decay parent + contrib parent
  let limit := if limit < minGasLimit then minGasLimit else limit
  if limit < target then
    let limit := parent.gasLimit + decay parent
    if target < limit then target else limit
  else limit

/-- The limit before the clamps, on natural numbers. -/
def rawGasLimit (limit used : ℕ) : ℕ := limit - (limit / 1024 - 1) + (used + used / 2) / 1024

/-- `CalcGasLimit` on natural numbers. -/
def gasLimitAfter (target limit used : ℕ) : ℕ :=
  if max (rawGasLimit limit used) 5000 < target then min target (limit + (limit / 1024 - 1))
  else max (rawGasLimit limit used) 5000

/-- What verification of a header leaves of its two gas fields. -/
structure GasChecked (h : Header) : Prop where
  minimum : 5000 ≤ h.gasLimit.toNat
  maximum : h.gasLimit.toNat < 2 ^ 63
  used : h.gasUsed.toNat ≤ h.gasLimit.toNat

theorem Acceptable.gasChecked {now : Clock} {header : Header} {uncle withSeal : Bool}
    (h : Acceptable now header parent uncle withSeal) : GasChecked header where
  minimum := le_iff_toNat_le.1 h.minimum
  maximum := Nat.lt_of_le_of_lt (le_iff_toNat_le.1 h.limit) (by decide)
  used := le_iff_toNat_le.1 h.used

/-- No addition or subtraction of `CalcGasLimit` leaves the range of a word. -/
structure StepsFit (limit used : ℕ) : Prop where
  contrib : used + used / 2 < 2 ^ 64
  decay : 1 ≤ limit / 1024
  lowered : limit / 1024 - 1 ≤ limit
  raw : rawGasLimit limit used < 2 ^ 64
  raised : limit + (limit / 1024 - 1) < 2 ^ 64

theorem gasLimit_steps_fit (checked : GasChecked parent) :
    StepsFit parent.gasLimit.toNat parent.gasUsed.toNat := by
  obtain ⟨hmin, hmax, hused⟩ := checked
  constructor
  case raw =>
    unfold rawGasLimit
    omega
  all_goals omega

section Exact

variable {parent : Header} (checked : GasChecked parent)
include checked

theorem toNat_contrib :
    (contrib parent).toNat = (parent.gasUsed.toNat + parent.gasUsed.toNat / 2) / 1024 := by
  have half : (parent.gasUsed / 2).toNat = parent.gasUsed.toNat / 2 := UInt64.toNat_div _ _
  rw [contrib, UInt64.toNat_div, Word.toNat_add, half]
  · rfl
  · rw [half]
    exact (gasLimit_steps_fit checked).contrib

theorem toNat_decay : (decay parent).toNat = parent.gasLimit.toNat / 1024 - 1 := by
  have quotient : (parent.gasLimit / gasLimitBoundDivisor).toNat = parent.gasLimit.toNat / 1024 :=
    UInt64.toNat_div _ _
  rw [decay, Word.toNat_sub, quotient]
  · rfl
  · rw [quotient]
    exact (gasLimit_steps_fit checked).decay

theorem toNat_raw : (parent.gasLimit - decay parent + contrib parent).toNat =
      rawGasLimit parent.gasLimit.toNat parent.gasUsed.toNat := by
  have fit := gasLimit_steps_fit checked
  have lowered : (parent.gasLimit - decay parent).toNat =
      parent.gasLimit.toNat - (parent.gasLimit.toNat / 1024 - 1) := by
    rw [Word.toNat_sub, toNat_decay checked]
    rw [toNat_decay checked]
    exact fit.lowered
  rw [Word.toNat_add, lowered, toNat_contrib checked]
  · rfl
  · rw [lowered, toNat_contrib checked]
    exact fit.raw

theorem toNat_raised : (parent.gasLimit + decay parent).toNat =
      parent.gasLimit.toNat + (parent.gasLimit.toNat / 1024 - 1) := by
  rw [Word.toNat_add, toNat_decay checked]
  rw [toNat_decay checked]
  exact (gasLimit_steps_fit checked).raised

theorem toNat_calcGasLimit (target : UInt64) : (calcGasLimit target parent).toNat =
      gasLimitAfter target.toNat parent.gasLimit.toNat parent.gasUsed.toNat := by
  have hmin : minGasLimit.toNat = 5000 := rfl
  unfold calcGasLimit gasLimitAfter
  rw [apply_ite toNat, Word.toNat_ite_min, Word.toNat_ite_max, toNat_raised checked,
    toNat_raw checked, hmin]
  refine if_congr ?_ rfl rfl
  rw [lt_iff_toNat_lt, Word.toNat_ite_max, toNat_raw checked, hmin]

end Exact

/-- The parents whose successor has a limit that `verifyHeader` accepts.  A nearly full block of a
limit below 5120 is not to be followed by a packager without a higher target, which raises the limit
by a whole 1024th; a limit that a 1024th takes to `2^63` is not to be raised. -/
def LimitInRange (target limit used : ℕ) : Prop :=
  ¬ (limit < 5120 ∧ 4779 ≤ used ∧ target ≤ limit + 4) ∧
    (limit + limit / 1024 ≤ 2 ^ 63 ∨
      target < 2 ^ 63 ∧ limit + 1 + (used + used / 2) / 1024 < 2 ^ 63 + limit / 1024)

instance (target limit used : ℕ) : Decidable (LimitInRange target limit used) :=
  inferInstanceAs (Decidable (_ ∧ _))

theorem gasLimitAfter_lower {limit : ℕ} (target used : ℕ) (hmin : 5000 ≤ limit) :
    5000 ≤ gasLimitAfter target limit used ∧
      limit < gasLimitAfter target limit used + limit / 1024 := by
  unfold gasLimitAfter rawGasLimit
  split_ifs <;> omega

theorem limitInRange_iff {target limit used : ℕ} (minimum : 5000 ≤ limit) (full : used ≤ limit) :
    LimitInRange target limit used ↔ gasLimitAfter target limit used < 2 ^ 63 ∧
      gasLimitAfter target limit used < limit + limit / 1024 := by
  unfold LimitInRange gasLimitAfter rawGasLimit
  split_ifs with raised
  · omega
  · omega

theorem calcGasLimit_accepted_iff (checked : GasChecked parent) (target : UInt64) :
    (calcGasLimit target parent ≤ maxGasLimit ∧
      gasLimitGap parent.gasLimit (calcGasLimit target parent) <
        parent.gasLimit / gasLimitBoundDivisor) ↔
      LimitInRange target.toNat parent.gasLimit.toNat parent.gasUsed.toNat := by
  have exact_limit := toNat_calcGasLimit checked target
  have lower := gasLimitAfter_lower target.toNat parent.gasUsed.toNat checked.minimum
  have hmax : maxGasLimit.toNat = 2 ^ 63 - 1 := rfl
  have quotient : (parent.gasLimit / gasLimitBoundDivisor).toNat = parent.gasLimit.toNat / 1024 :=
    UInt64.toNat_div _ _
  rw [limitInRange_iff checked.minimum checked.used, ← exact_limit, le_iff_toNat_le, hmax,
    lt_iff_toNat_lt, quotient]
  have gap (h : (calcGasLimit target parent).toNat < 2 ^ 63) :
      ((gasLimitGap parent.gasLimit (calcGasLimit target parent)).toNat : ℤ) =
        ((parent.gasLimit.toNat : ℤ) - (calcGasLimit target parent).toNat).natAbs :=
    Word.toNat_absDiff checked.maximum h
  constructor
  · rintro ⟨hle, hgap⟩
    omega
  · rintro ⟨hlt, hgap⟩
    omega

/-! ## The new header -/

/-- `NewPackager` gets the coinbase, the target is `config.TargetGasLimit`. -/
structure Packager where
  coinbase : Address
  targetGasLimit : UInt64

/-- The time of a packaged block. -/
def timestamp (now : Clock) (parent : Header) : ℤ :=
  if (now.unix : ℤ) ≤ parent.time then (Int64.ofInt parent.time + 1).toInt else now.unix

def prepare (parent header : Header) : Header :=
  { header with difficulty := calcDifficulty (bigUint64 header.time) parent }

/-- The header `GenerateNewBlock` starts from.  Nothing sets the packager's extra data. -/
def newHeader (p : Packager) (now : Clock) (round : UInt64) (presidentId : GoString)
    (parentHash : Hash) (parent : Header) : Header :=
  prepare parent
    { parentHash := parentHash
      difficulty := 0
      number := parent.number + 1
      time := timestamp now parent
      round := round
      presidentId := presidentId
      uncleHash := 0
      coinbase := p.coinbase
      root := 0
      txHash := 0
      receiptHash := 0
      bloom := 0
      gasLimit := calcGasLimit p.targetGasLimit parent
      gasUsed := 0
      extra := []
      dappID := 0 }

/-- What a header is completed with. -/
structure Summary where
  gasUsed : UInt64
  uncleHash : Hash
  root : Hash
  txHash : Hash
  receiptHash : Hash
  bloom : Bloom

/-- The header with what `commitTransactions`, `Finalize` and `NewBlock` add. -/
def Header.complete (h : Header) (x : Summary) : Header :=
  { h with
    gasUsed := x.gasUsed
    uncleHash := x.uncleHash
    root := x.root
    txHash := x.txHash
    receiptHash := x.receiptHash
    bloom := x.bloom }

theorem timestamp_eq (now : Clock) (h : parent.time < 2 ^ 63 - 1) :
    timestamp now parent = max (now.unix : ℤ) (parent.time + 1) := by
  unfold timestamp
  split_ifs with later
  · have exact_time : (Int64.ofInt parent.time).toInt = parent.time :=
      Int64.toInt_ofInt_of_le (by omega) (by omega)
    have hone : (1 : Int64).toInt = 1 := rfl
    rw [Int64.toInt_add, exact_time, hone, max_eq_right (by omega)]
    exact Int.bmod_eq_of_le (by norm_num; omega) (by norm_num; omega)
  · rw [max_eq_left (by omega)]

/-- The two clocks leave room for the new time stamp. -/
def InTime (now verifier : Clock) (parent : Header) : Prop :=
  now.unix ≤ verifier.unix + 15 ∧ parent.time < verifier.unix + 15

instance (now verifier : Clock) (parent : Header) : Decidable (InTime now verifier parent) :=
  inferInstanceAs (Decidable (_ ∧ _))

section Accepted

variable {parent : Header} (p : Packager) (now verifier : Clock) (round : UInt64)
  (presidentId : GoString) (parentHash : Hash) {x : Summary} (withSeal : Bool)

theorem newHeader_acceptable_iff (checked : GasChecked parent) (past : parent.time < 2 ^ 63 - 1)
    (within : x.gasUsed ≤ calcGasLimit p.targetGasLimit parent) :
    Acceptable verifier ((newHeader p now round presidentId parentHash parent).complete x) parent
        false withSeal ↔ InTime now verifier parent ∧
        LimitInRange p.targetGasLimit.toNat parent.gasLimit.toNat parent.gasUsed.toNat := by
  have stamp := timestamp_eq now past
  have minimum : minGasLimit ≤ calcGasLimit p.targetGasLimit parent := by
    rw [le_iff_toNat_le, toNat_calcGasLimit checked]
    exact (gasLimitAfter_lower _ _ checked.minimum).1
  rw [← calcGasLimit_accepted_iff checked]
  constructor
  · intro accepted
    have time : timestamp now parent ≤ verifier.unix + 15 := accepted.time
    exact ⟨⟨by omega, by omega⟩, accepted.limit, accepted.gap⟩
  · rintro ⟨⟨hnow, hparent⟩, limit, gap⟩
    exact
      { extra := Nat.zero_le _
        time := show timestamp now parent ≤ verifier.unix + 15 by rw [stamp]; omega
        after := show parent.time ≤ timestamp now parent by rw [stamp]; omega
        difficulty := fun _ => rfl
        limit := limit
        used := within
        gap := gap
        minimum := minimum
        number := rfl
        positive := fun _ => lt_of_lt_of_le (by decide) (minimumDifficulty_le _ parent) }

end Accepted

end JuChain.Engine
