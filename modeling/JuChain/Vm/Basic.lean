import JuChain.Core.Types
import JuChain.Lib.Slices

/-!
# Numbers of the virtual machine

`vm/solc`: the errors of the machine, the price of memory in `config/protocol_params.go`, and the
helpers of `common.go` and `common/math` that guard 64-bit arithmetic.
-/

namespace JuChain.Vm

/-- The errors of the EVM. -/
inductive VmError where
  | outOfGas
  | codeStoreOutOfGas
  | depth
  | insufficientBalance
  | contractAddressCollision
  | writeProtection
  | returnDataOutOfBounds
  | executionReverted
  | maxCodeSizeExceeded
  | gasUintOverflow
  | invalidOpcode (op : UInt8)
  | stackUnderflow (len required : ℕ)
  | stackLimitReached (len : ℕ)
  | invalidJumpDestination (op : UInt8) (pos : ℤ)
  | precompiled (msg : String)
  deriving DecidableEq

/-- A value, an error or a panic. -/
abbrev Result (α : Type) := Except (Fault VmError) α

def memoryGas : UInt64 := 3

def quadCoeffDiv : UInt64 := 512

/-! ## Guarded arithmetic -/

def maxUint64 : UInt64 := 0xFFFFFFFFFFFFFFFF

def safeMul (x y : UInt64) : UInt64 × Bool :=
  if x = 0 ∨ y = 0 then (0, false) else (x * y, maxUint64 / x < y)

/-- An overflow is an error. -/
def checked (r : UInt64 × Bool) : Result UInt64 :=
  if r.2 then .error (.err .gasUintOverflow) else .ok r.1

def toWordSize (size : UInt64) : UInt64 :=
  if maxUint64 - 31 < size then maxUint64 / 32 + 1 else (size + 31) / 32

theorem safeMul_overflows {x y : UInt64} : (safeMul x y).2 = true ↔ 2 ^ 64 ≤ x.toNat * y.toNat := by
  unfold safeMul
  split_ifs with zero
  · rcases zero with rfl | rfl <;> simp
  · have pos : 0 < x.toNat := by
      rw [not_or] at zero
      exact Nat.pos_of_ne_zero fun h => zero.1 (UInt64.toNat_inj.1 h)
    rw [decide_eq_true_iff, UInt64.lt_iff_toNat_lt, UInt64.toNat_div, Nat.div_lt_iff_lt_mul pos,
      Nat.mul_comm]
    show 2 ^ 64 - 1 < _ ↔ _
    omega

theorem checked_safeMul_eq_ok {x y z : UInt64} :
    checked (safeMul x y) = .ok z ↔ z.toNat = x.toNat * y.toNat := by
  have hz := z.toNat_lt
  unfold checked
  split_ifs with wraps
  · have := safeMul_overflows.1 wraps
    exact ⟨nofun, fun h => by omega⟩
  · have fits := mt safeMul_overflows.2 wraps
    have product : (safeMul x y).1.toNat = x.toNat * y.toNat := by
      unfold safeMul
      split_ifs with zero
      · rcases zero with rfl | rfl <;> simp
      · rw [UInt64.toNat_mul]
        exact Nat.mod_eq_of_lt (Nat.not_le.1 fits)
    rw [Except.ok.injEq, ← UInt64.toNat_inj, product, eq_comm]

theorem toNat_toWordSize (size : UInt64) : (toWordSize size).toNat = (size.toNat + 31) / 32 := by
  have hs := size.toNat_lt
  have limit : (maxUint64 - 31).toNat = 2 ^ 64 - 32 := rfl
  unfold toWordSize
  split_ifs with large
  · rw [UInt64.lt_iff_toNat_lt, limit] at large
    show 2 ^ 59 = _
    omega
  · rw [UInt64.lt_iff_toNat_lt, limit] at large
    show (size.toNat + 31) % 2 ^ 64 / 32 = _
    omega

end JuChain.Vm
