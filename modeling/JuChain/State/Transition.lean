import JuChain.Lib.Word
import JuChain.State.StateDB
import Mathlib.Tactic.Ring

/-!
# Applying a message

`core/state_transition.go`: a message buys its gas from the sender and from the gas pool of the
block, pays the intrinsic gas, runs, and settles.

The virtual machine is any function of the accounts, the message and the block (`Evm`) that leaves
at most the gas it was given, and finds an insufficient balance before it changes anything.
-/

namespace JuChain.State

open UInt64 Except

structure Message where
  sender : Address
  recipient : Option Address
  nonce : UInt64
  value : ℤ
  gas : UInt64
  gasPrice : ℤ
  data : Bytes
  checkNonce : Bool
  data_lt : data.length < 2 ^ 63

/-- `vm.Context`.  `GetHash` looks up the ancestors of the block from its parent on. -/
structure Context where
  origin : Address
  coinbase : Address
  parentHash : Hash
  blockNumber : ℕ
  time : ℤ
  difficulty : ℤ
  gasLimit : UInt64
  gasPrice : ℤ
  deriving DecidableEq

/-- The errors of the EVM. -/
inductive VmError
  | insufficientBalance
  | other
  deriving DecidableEq

/-- What a call does and returns. -/
structure CallResult where
  ops : List StateDB.Op
  gas : UInt64
  err : Option VmError

/-- `EVM.Call`, or `EVM.Create` without recipient, as a function of what it can read. -/
structure Evm where
  call : Context → Message → (Address → Option StateObject) → UInt64 → UInt64 → CallResult
  gas_le : ∀ ctx msg objects refund gas, (call ctx msg objects refund gas).gas.toNat ≤ gas.toNat
  unchanged : ∀ ctx msg objects refund gas,
    (call ctx msg objects refund gas).err = some .insufficientBalance →
      (call ctx msg objects refund gas).ops = []

/-! ## Gas -/

/-- `GasPool.AddGas`, which panics on overflow. -/
def addGas (gp amount : UInt64) : Option UInt64 :=
  if 0xffffffffffffffff - amount < gp then none else some (gp + amount)

/-- The errors of a transition. -/
inductive TxError
  | nonceTooHigh
  | nonceTooLow
  | insufficientBalanceForGas
  | gasLimitReached
  | outOfGas
  | insufficientBalance
  | invalidSender
  deriving DecidableEq

/-- `GasPool.SubGas`. -/
def subGas (gp amount : UInt64) : Except TxError UInt64 :=
  if gp < amount then .error .gasLimitReached else .ok (gp - amount)

def txGas : UInt64 := 21000

def txGasContractCreation : UInt64 := 53000

def txDataNonZeroGas : UInt64 := 68

def txDataZeroGas : UInt64 := 4

/-- The gas before the data. -/
def startingGas (contractCreation : Bool) : UInt64 :=
  if contractCreation then txGasContractCreation else txGas

def intrinsicGas (data : Bytes) (contractCreation : Bool) : Except TxError UInt64 :=
  let gas := startingGas contractCreation
  if data.length = 0 then .ok gas
  else
    let nz := UInt64.ofNat (data.countP (· ≠ 0))
    if (0xffffffffffffffff - gas) / txDataNonZeroGas < nz then .error .outOfGas
    else
      let gas := gas + nz * txDataNonZeroGas
      let z := UInt64.ofNat data.length - nz
      if (0xffffffffffffffff - gas) / txDataZeroGas < z then .error .outOfGas
      else .ok (gas + z * txDataZeroGas)

/-! ## `TransitionDb` -/

/-- What a message leaves: the state and the pool also on an error. -/
structure Applied where
  state : StateDB
  gp : UInt64
  result : Except TxError (UInt64 × Bool)

namespace Message

variable (msg : Message)

/-- The price of all the gas. -/
def gasValue : ℤ := msg.gas.toNat * msg.gasPrice

/-- `preCheck`, the nonce. -/
def checkNonceAt (s : StateDB) : Except TxError Unit :=
  if msg.checkNonce = true ∧ s.getNonce msg.sender < msg.nonce then .error .nonceTooHigh
  else if msg.checkNonce = true ∧ msg.nonce < s.getNonce msg.sender then .error .nonceTooLow
  else .ok ()

/-- `buyGas` and the nonce check before it: the pool that is left, and the price still to be paid.
-/
def preCheck (gp : UInt64) (s : StateDB) : Except TxError UInt64 :=
  match msg.checkNonceAt s with
  | .error e => .error e
  | .ok _ => if s.getBalance msg.sender < msg.gasValue then .error .insufficientBalanceForGas
    else subGas gp msg.gas

/-- The state in which the machine starts: gas paid, and the nonce used by a call. -/
def beforeCall (s : StateDB) : StateDB :=
  let s := s.subBalance msg.sender msg.gasValue
  if msg.recipient.isNone then s else s.setNonce msg.sender (s.getNonce msg.sender + 1)

/-- The call of the EVM. -/
def callWith (evm : Evm) (ctx : Context) (s : StateDB) (intrinsic : UInt64) : CallResult :=
  evm.call ctx msg (msg.beforeCall s).objects (msg.beforeCall s).refund (msg.gas - intrinsic)

/-- The state after the call. -/
def afterCall (evm : Evm) (ctx : Context) (s : StateDB) (intrinsic : UInt64) : StateDB :=
  (msg.beforeCall s).execAll (msg.callWith evm ctx s intrinsic).ops

/-- `refundGas`. -/
def refundOf (s : StateDB) (gas : UInt64) : UInt64 :=
  if s.refund < (msg.gas - gas) / 2 then s.refund else (msg.gas - gas) / 2

/-- `refundGas` and the payment of the coinbase, with `gas` left. -/
def settle (ctx : Context) (gp : UInt64) (s : StateDB) (gas : UInt64) (failed : Bool) :
    Option Applied :=
  let gas := gas + msg.refundOf s gas
  let used := msg.gas - gas
  (addGas gp gas).map fun gp =>
    { state := (s.addBalance msg.sender (gas.toNat * msg.gasPrice)).addBalance ctx.coinbase
        (used.toNat * msg.gasPrice)
      gp := gp
      result := .ok (used, failed) }

/-- `TransitionDb`; `none` stands for the panic of the gas pool. -/
def transitionDb (evm : Evm) (ctx : Context) (gp : UInt64) (s : StateDB) : Option Applied :=
  match msg.preCheck gp s with
  | .error e => some ⟨s, gp, .error e⟩
  | .ok gp =>
    match intrinsicGas msg.data msg.recipient.isNone with
    | .error e => some ⟨s.subBalance msg.sender msg.gasValue, gp, .error e⟩
    | .ok intrinsic =>
      if msg.gas < intrinsic then some ⟨s.subBalance msg.sender msg.gasValue, gp, .error .outOfGas⟩
      else
        let r := msg.callWith evm ctx s intrinsic
        if r.err = some .insufficientBalance then
          some ⟨msg.afterCall evm ctx s intrinsic, gp, .error .insufficientBalance⟩
        else msg.settle ctx gp (msg.afterCall evm ctx s intrinsic) r.gas r.err.isSome

end Message

/-! ## The gas arithmetic is exact -/

/-- The intrinsic gas as a natural number. -/
def intrinsicAmount (data : Bytes) (contractCreation : Bool) : ℕ :=
  (if contractCreation then 53000 else 21000) + data.countP (· ≠ 0) * 68 +
    (data.length - data.countP (· ≠ 0)) * 4

theorem toNat_add_mul {gas n price : UInt64} (hprice : 0 < price.toNat)
    (h : ¬(0xffffffffffffffff - gas) / price < n) :
    (gas + n * price).toNat = gas.toNat + n.toNat * price.toNat := by
  have hmax : (0xffffffffffffffff - gas).toNat = 2 ^ 64 - 1 - gas.toNat :=
    Word.toNat_sub (show gas.toNat ≤ 2 ^ 64 - 1 by have := gas.toNat_lt; omega)
  rw [UInt64.not_lt, UInt64.le_iff_toNat_le, UInt64.toNat_div, hmax,
    Nat.le_div_iff_mul_le hprice] at h
  have hgas := gas.toNat_lt
  have product : (n * price).toNat = n.toNat * price.toNat := Word.toNat_mul (by omega)
  rw [Word.toNat_add (by omega), product]

theorem toNat_intrinsicGas {data : Bytes} {contractCreation : Bool} {gas : UInt64}
    (hdata : data.length < 2 ^ 63) (h : intrinsicGas data contractCreation = .ok gas) :
    gas.toNat = intrinsicAmount data contractCreation := by
  have hcount : data.countP (· ≠ 0) ≤ data.length := List.countP_le_length
  have start : (startingGas contractCreation).toNat =
      if contractCreation then 53000 else 21000 := by
    cases contractCreation <;> rfl
  unfold intrinsicGas at h
  dsimp only at h
  unfold intrinsicAmount
  split_ifs at h with hempty hnz hz
  · obtain rfl := ok.inj h
    omega
  · obtain rfl := ok.inj h
    have nonzero : (ofNat (data.countP (· ≠ 0))).toNat = data.countP (· ≠ 0) := by
      rw [toNat_ofNat', Nat.mod_eq_of_lt (by omega)]
    have zeros : (ofNat data.length - ofNat (data.countP (· ≠ 0))).toNat =
        data.length - data.countP (· ≠ 0) := by
      have length : (ofNat data.length).toNat = data.length := by
        rw [toNat_ofNat', Nat.mod_eq_of_lt (by omega)]
      rw [Word.toNat_sub (by rw [nonzero, length]; exact hcount), nonzero, length]
    rw [toNat_add_mul (by decide) hz, toNat_add_mul (by decide) hnz, zeros, nonzero, start]
    rfl

namespace Message

variable {msg : Message} {evm : Evm} {ctx : Context} {gp gp₁ used : UInt64} {s : StateDB}
  {r : Applied} {failed : Bool}

theorem preCheck_eq_ok_iff : msg.preCheck gp s = .ok gp₁ ↔
    (msg.checkNonce = true → msg.nonce = s.getNonce msg.sender) ∧
      msg.gasValue ≤ s.getBalance msg.sender ∧ msg.gas ≤ gp ∧ gp₁ = gp - msg.gas := by
  have nonce : msg.checkNonceAt s = .ok () ↔
      (msg.checkNonce = true → msg.nonce = s.getNonce msg.sender) := by
    unfold checkNonceAt
    cases msg.checkNonce with
    | false => simp
    | true =>
      simp only [← UInt64.toNat_inj, UInt64.lt_iff_toNat_lt, true_and, forall_const]
      split_ifs with high low
      · exact iff_of_false nofun (by omega)
      · exact iff_of_false nofun (by omega)
      · exact iff_of_true rfl (by omega)
  rw [← nonce]
  unfold preCheck subGas
  cases msg.checkNonceAt s with
  | error e => simp
  | ok u =>
    by_cases poor : s.getBalance msg.sender < msg.gasValue
    · simp [poor]
    · by_cases short : gp < msg.gas
      · simp [poor, short]
      · simp [poor, short, not_lt.1 poor, UInt64.not_lt.1 short, eq_comm]

theorem preCheck_eq_ok (h : msg.preCheck gp s = .ok gp₁) :
    msg.gas.toNat ≤ gp.toNat ∧ gp₁ = gp - msg.gas := by
  obtain ⟨-, -, room, rest⟩ := preCheck_eq_ok_iff.1 h
  exact ⟨le_iff_toNat_le.1 room, rest⟩

theorem transitionDb_eq_ok (ran : msg.transitionDb evm ctx gp s = some r)
    (ok : r.result = .ok (used, failed)) : ∃ gp₁ intrinsic, msg.preCheck gp s = .ok gp₁ ∧
      intrinsicGas msg.data msg.recipient.isNone = .ok intrinsic ∧ intrinsic ≤ msg.gas ∧
      (msg.callWith evm ctx s intrinsic).err ≠ some .insufficientBalance ∧
      msg.settle ctx gp₁ (msg.afterCall evm ctx s intrinsic) (msg.callWith evm ctx s intrinsic).gas
        (msg.callWith evm ctx s intrinsic).err.isSome = some r := by
  have errored {t : StateDB} {g : UInt64} {e : TxError} (h : some ⟨t, g, .error e⟩ = some r) :
      False := by
    obtain rfl := Option.some.inj h
    exact nomatch ok
  unfold transitionDb at ran
  split at ran
  · exact (errored ran).elim
  · rename_i gp₁ hpre
    split at ran
    · exact (errored ran).elim
    · rename_i intrinsic hintrinsic
      dsimp only at ran
      split_ifs at ran with hgas herr
      · exact (errored ran).elim
      · exact (errored ran).elim
      · exact ⟨gp₁, intrinsic, hpre, hintrinsic, UInt64.not_lt.1 hgas, herr, ran⟩

theorem transitionDb_eq_settle {intrinsic : UInt64} (hpre : msg.preCheck gp s = .ok gp₁)
    (hintrinsic : intrinsicGas msg.data msg.recipient.isNone = .ok intrinsic)
    (hpaid : intrinsic ≤ msg.gas)
    (herr : (msg.callWith evm ctx s intrinsic).err ≠ some .insufficientBalance) :
    msg.transitionDb evm ctx gp s = msg.settle ctx gp₁ (msg.afterCall evm ctx s intrinsic)
        (msg.callWith evm ctx s intrinsic).gas (msg.callWith evm ctx s intrinsic).err.isSome := by
  unfold transitionDb
  rw [hpre]
  rw [hintrinsic]
  dsimp only
  rw [if_neg (UInt64.not_lt.2 hpaid), if_neg herr]

theorem toNat_refundOf (hleft : used.toNat ≤ msg.gas.toNat) :
    (msg.refundOf s used).toNat = min s.refund.toNat ((msg.gas.toNat - used.toNat) / 2) := by
  have half : ((msg.gas - used) / 2).toNat = (msg.gas.toNat - used.toNat) / 2 := by
    rw [UInt64.toNat_div, Word.toNat_sub hleft]
    rfl
  rw [refundOf, Word.toNat_ite_min, half]

/-- The gas that goes back, in words and in numbers. -/
structure Returned (msg : Message) (s : StateDB) (left gas : UInt64) : Prop where
  eq : gas = left + msg.refundOf s left
  exact_sum : gas.toNat = left.toNat + (msg.refundOf s left).toNat
  refund_le : (msg.refundOf s left).toNat ≤ (msg.gas.toNat - left.toNat) / 2
  le : gas.toNat ≤ msg.gas.toNat

theorem returned {left : UInt64} (hleft : left.toNat ≤ msg.gas.toNat) :
    Returned msg s left (left + msg.refundOf s left) := by
  have hgas := msg.gas.toNat_lt
  have cap : (msg.refundOf s left).toNat ≤ (msg.gas.toNat - left.toNat) / 2 := by
    rw [toNat_refundOf hleft]
    exact min_le_right _ _
  have sum : (left + msg.refundOf s left).toNat = left.toNat + (msg.refundOf s left).toNat :=
    Word.toNat_add (by omega)
  exact ⟨rfl, sum, cap, by omega⟩

theorem settle_eq {left gas : UInt64} (hret : Returned msg s left gas)
    (hpool : gp₁.toNat + msg.gas.toNat < 2 ^ 64) : msg.settle ctx gp₁ s left failed = some
      { state := (s.addBalance msg.sender (gas.toNat * msg.gasPrice)).addBalance ctx.coinbase
          ((msg.gas - gas).toNat * msg.gasPrice)
        gp := gp₁ + gas
        result := .ok (msg.gas - gas, failed) } := by
  obtain ⟨rfl, -, -, hle⟩ := hret
  have room : ¬0xffffffffffffffff - (left + msg.refundOf s left) < gp₁ := by
    have hmax : (0xffffffffffffffff - (left + msg.refundOf s left)).toNat =
        2 ^ 64 - 1 - (left + msg.refundOf s left).toNat :=
      Word.toNat_sub (show (left + msg.refundOf s left).toNat ≤ 2 ^ 64 - 1 by omega)
    rw [lt_iff_toNat_lt, hmax]
    omega
  rw [settle, addGas, if_neg room]
  rfl

theorem callWith_gas_le {intrinsic : UInt64} (h : intrinsic ≤ msg.gas) :
    (msg.callWith evm ctx s intrinsic).gas.toNat ≤ msg.gas.toNat - intrinsic.toNat := by
  rw [← Word.toNat_sub (le_iff_toNat_le.1 h)]
  exact evm.gas_le ctx msg _ _ _

/-! ## Conservation -/

/-- None of the additions and subtractions of gas leaves the range of a word. -/
structure GasFits (msg : Message) (gp intrinsic left refund used : UInt64) : Prop where
  intrinsic_eq : intrinsic.toNat = intrinsicAmount msg.data msg.recipient.isNone
  bought : msg.gas.toNat ≤ gp.toNat
  paid : intrinsic.toNat ≤ msg.gas.toNat
  left_le : left.toNat ≤ msg.gas.toNat - intrinsic.toNat
  refunded : left.toNat + refund.toNat ≤ msg.gas.toNat
  returned : gp.toNat - msg.gas.toNat + (left.toNat + refund.toNat) < 2 ^ 64
  used_eq : used.toNat = msg.gas.toNat - (left.toNat + refund.toNat)

/-- What the machine itself did to a balance. -/
def callEffect (msg : Message) (evm : Evm) (ctx : Context) (s : StateDB) (intrinsic : UInt64)
    (a : Address) : ℤ :=
  (msg.afterCall evm ctx s intrinsic).getBalance a - (msg.beforeCall s).getBalance a

/-- What the machine destroyed: the total before less the total after. -/
def destroyed (msg : Message) (evm : Evm) (ctx : Context) (s : StateDB) (intrinsic : UInt64) : ℤ :=
  (msg.beforeCall s).total - (msg.afterCall evm ctx s intrinsic).total

theorem getBalance_beforeCall (a : Address) : (msg.beforeCall s).getBalance a =
      s.getBalance a + if a = msg.sender then -msg.gasValue else 0 := by
  have charged := StateDB.getBalance_subBalance s msg.sender a msg.gasValue
  unfold beforeCall
  split_ifs at charged ⊢
  · exact charged
  · exact charged
  · exact (StateDB.getBalance_setNonce _ _ _ _).trans charged
  · exact (StateDB.getBalance_setNonce _ _ _ _).trans charged

theorem total_beforeCall : (msg.beforeCall s).total = s.total - msg.gasValue := by
  rw [sub_eq_add_neg]
  exact StateDB.total_of_change getBalance_beforeCall

/-- The total changes by what the machine destroys, each balance by what the machine did, less the
price of the gas used for the sender and plus it for the coinbase, whichever accounts coincide.  At
least half of the gas consumed is used. -/
theorem value_conserved (ran : msg.transitionDb evm ctx gp s = some r)
    (ok : r.result = .ok (used, failed)) : ∃ intrinsic left refund : UInt64,
      left = (msg.callWith evm ctx s intrinsic).gas ∧
      r.state.total = s.total - msg.destroyed evm ctx s intrinsic ∧
      (∀ a, r.state.getBalance a = s.getBalance a + msg.callEffect evm ctx s intrinsic a
        - (if a = msg.sender then used.toNat * msg.gasPrice else 0)
        + (if a = ctx.coinbase then used.toNat * msg.gasPrice else 0)) ∧
      msg.gas.toNat - left.toNat ≤ 2 * used.toNat ∧ used.toNat ≤ msg.gas.toNat ∧
      r.gp.toNat + used.toNat = gp.toNat ∧ GasFits msg gp intrinsic left refund used := by
  obtain ⟨gp₁, intrinsic, hpre, hintrinsic, hpaid, -, hsettle⟩ := transitionDb_eq_ok ran ok
  obtain ⟨hbought, rfl⟩ := preCheck_eq_ok hpre
  have hgp := gp.toNat_lt
  have hleft : (msg.callWith evm ctx s intrinsic).gas.toNat ≤ msg.gas.toNat - intrinsic.toNat :=
    callWith_gas_le hpaid
  have hrest : (gp - msg.gas).toNat = gp.toNat - msg.gas.toNat := Word.toNat_sub hbought
  -- The machine's left-over and the refund, and what is used then.
  have hret := returned (s := msg.afterCall evm ctx s intrinsic) (hleft.trans (Nat.sub_le _ _))
  have husedNat := Word.toNat_sub hret.le
  rw [settle_eq hret (by omega), Option.some.injEq] at hsettle
  obtain rfl := hsettle
  obtain rfl : msg.gas - _ = used := (Prod.mk.inj (Except.ok.inj ok)).1
  obtain ⟨-, hsum, hcap, hle⟩ := hret
  refine ⟨intrinsic, (msg.callWith evm ctx s intrinsic).gas,
    msg.refundOf (msg.afterCall evm ctx s intrinsic) (msg.callWith evm ctx s intrinsic).gas, rfl,
    ?_, fun a => ?_, by omega, by omega, ?_, toNat_intrinsicGas msg.data_lt hintrinsic, hbought,
    hpaid, hleft, by omega, by omega, by rw [husedNat, hsum]⟩
  · -- The two payments together are what the gas cost.
    rw [StateDB.total_addBalance, StateDB.total_addBalance, destroyed, total_beforeCall, husedNat,
      gasValue]
    push_cast [hle]
    ring
  · rw [StateDB.getBalance_addBalance, StateDB.getBalance_addBalance, callEffect,
      getBalance_beforeCall, husedNat, gasValue]
    push_cast [hle]
    split_ifs <;> ring
  · rw [Word.toNat_add (by omega), hrest, husedNat]
    omega

/-- A machine that only moves the value, as for a recipient without code. -/
def transferOnly : Evm where
  call _ msg objects _ gas :=
    if ((objects msg.sender).map (·.balance)).getD 0 < msg.value then
      ⟨[], gas, some .insufficientBalance⟩
    else
      ⟨[.subBalance msg.sender msg.value, .addBalance (msg.recipient.getD 0) msg.value], gas, none⟩
  gas_le ctx msg objects refund gas := by
    split_ifs <;> exact le_rfl
  unchanged ctx msg objects refund gas h := by
    split_ifs at h ⊢
    rfl

theorem no_data_lt : ([] : Bytes).length < 2 ^ 63 := by decide

/-- A transfer. -/
def sampleMessage : Message where
  sender := 1
  recipient := some 2
  nonce := 0
  value := 5
  gas := 30000
  gasPrice := 2
  data := []
  checkNonce := true
  data_lt := no_data_lt

/-- Its context. -/
def sampleContext : Context where
  origin := 1
  coinbase := 1
  parentHash := 0
  blockNumber := 1
  time := 10
  difficulty := 131072
  gasLimit := 100000
  gasPrice := 2

/-- The sender alone. -/
def sampleState : StateDB := .new fun a => if a = 1 then some { balance := 1000000 } else none

theorem value_conserved_transfer :
    ∃ r, sampleMessage.transitionDb transferOnly sampleContext 100000 sampleState = some r ∧
      r.result = .ok (21000, false) ∧ r.gp.toNat + 21000 = 100000 := by
  refine ⟨_, rfl, rfl, ?_⟩
  obtain ⟨_, _, _, -, -, -, -, -, pool, -⟩ :=
    @value_conserved sampleMessage transferOnly sampleContext 100000 21000 sampleState _ false
      rfl rfl
  exact pool

end Message

end JuChain.State
