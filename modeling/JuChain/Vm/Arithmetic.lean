import JuChain.Lib.Cells
import JuChain.Vm.Basic

/-!
# Arithmetic instructions

`vm/solc/instructions.go`, `opAdd` to `opSAR`, and the helpers of `common/math/big.go`.  Operands
are arbitrary integers (`*big.Int`) that stand for 256-bit words.  `Arith.spec` says what the
instructions should compute.  The bound of the shifts is `common.Big256`, which is 255 and not 256:
a shift by 255 loses the one bit that should be left, and `SAR` makes zero minus one
(`value_eq_spec_iff`).
-/

namespace JuChain.Vm

/-- `math.U256`: the low 256 bits. -/
def u256 (x : ℤ) : ℤ := Int.land x (2 ^ 256 - 1)

/-- `math.S256`: the value of a word as a two's complement number. -/
def s256 (x : ℤ) : ℤ := if x < 2 ^ 255 then x else x - 2 ^ 256

/-- The number fits in a word. -/
def IsWord (x : ℤ) : Prop := 0 ≤ x ∧ x < 2 ^ 256

instance decidableIsWord (x : ℤ) : Decidable (IsWord x) := inferInstanceAs (Decidable (_ ∧ _))

theorem ldiff_mask (k m : ℕ) : Nat.ldiff (2 ^ k - 1) m = 2 ^ k - 1 - m % 2 ^ k := by
  have lt : m % 2 ^ k < 2 ^ k := Nat.mod_lt _ (Nat.two_pow_pos k)
  refine Nat.eq_of_testBit_eq fun i => ?_
  rw [Nat.testBit_ldiff, Nat.testBit_two_pow_sub_one, show 2 ^ k - 1 - m % 2 ^ k =
    2 ^ k - (m % 2 ^ k + 1) by omega, Nat.testBit_two_pow_sub_succ lt, Nat.testBit_mod_two_pow]
  by_cases hi : i < k <;> simp [hi]

theorem land_mask (x : ℤ) (k : ℕ) : Int.land x (2 ^ k - 1) = x % 2 ^ k := by
  have pos := Nat.two_pow_pos k
  have mask : ((2 : ℤ) ^ k - 1) = ((2 ^ k - 1 : ℕ) : ℤ) := by
    rw [Nat.cast_sub pos]
    rfl
  rw [mask]
  cases x with
  | ofNat m =>
    show ((m &&& (2 ^ k - 1) : ℕ) : ℤ) = _
    rw [Nat.and_two_pow_sub_one_eq_mod]
    rfl
  | negSucc m =>
    show ((Nat.ldiff (2 ^ k - 1) m : ℕ) : ℤ) = _
    rw [ldiff_mask, Int.negSucc_emod _ (by positivity), Nat.sub_sub, Nat.cast_sub (by omega)]
    push_cast
    ring

theorem u256_eq (x : ℤ) : u256 x = x % 2 ^ 256 := land_mask x 256

theorem isWord_u256 (x : ℤ) : IsWord (u256 x) := by
  rw [u256_eq]
  exact ⟨Int.emod_nonneg _ (by norm_num), Int.emod_lt_of_pos _ (by norm_num)⟩

theorem u256_of_isWord {x : ℤ} (h : IsWord x) : u256 x = x := by
  rw [u256_eq]
  exact Int.emod_eq_of_lt h.1 h.2

/-! ## What the instructions compute -/

/-- The value of `opAdd`. -/
def add (x y : ℤ) : ℤ := u256 (x + y)

/-- The value of `opSub`. -/
def sub (x y : ℤ) : ℤ := u256 (x - y)

/-- The value of `opMul`. -/
def mul (x y : ℤ) : ℤ := u256 (x * y)

/-- The value of `opDiv`. -/
def div (x y : ℤ) : ℤ := if y ≠ 0 then u256 (x / y) else 0

/-- `opSdiv`: the quotient of the absolute values, with the sign put back. -/
def sdiv (x y : ℤ) : ℤ :=
  if s256 y = 0 ∨ s256 x = 0 then 0
  else if (s256 x).sign ≠ (s256 y).sign then u256 (-(|s256 x| / |s256 y|))
  else u256 (|s256 x| / |s256 y|)

/-- The value of `opMod`. -/
def mod (x y : ℤ) : ℤ := if y = 0 then 0 else u256 (x % y)

/-- The value of `opSmod`. -/
def smod (x y : ℤ) : ℤ :=
  if s256 y = 0 then 0
  else if s256 x < 0 then u256 (-(|s256 x| % |s256 y|))
  else u256 (|s256 x| % |s256 y|)

/-- The value of `opAddmod`. -/
def addmod (x y z : ℤ) : ℤ := if 0 < z then u256 ((x + y) % z) else 0

/-- The value of `opMulmod`. -/
def mulmod (x y z : ℤ) : ℤ := if 0 < z then u256 (x * y % z) else 0

/-- `big.Int.Bits`: the 64-bit words of the absolute value, the lowest first. -/
def bigWords (x : ℤ) : List ℕ := Nat.digits (2 ^ 64) x.natAbs

/-- The inner loop of `math.Exp` over `n` bits of a word of the exponent; the base is squared in
place. -/
def expBits : ℕ → ℕ → ℤ × ℤ → ℤ × ℤ
  | 0, _, acc => acc
  | n + 1, word, (result, base) =>
    expBits n (word / 2) (if word % 2 = 1 then u256 (result * base) else result, u256 (base * base))

/-- `math.Exp`: the power, and what is left in `base`. -/
def mathExp (base exponent : ℤ) : ℤ × ℤ :=
  (bigWords exponent).foldl (fun acc word => expBits 64 word acc) (1, base)

/-- The value of `opExp`. -/
def exp (base exponent : ℤ) : ℤ := (mathExp base exponent).1

/-- The value of `opSignExtend`. -/
def signExtend (back num : ℤ) : ℤ :=
  if back < 31 then
    let bit := back.toNat * 8 + 7
    let mask := 2 ^ bit - 1
    u256 (if num.testBit bit then Int.lor num (Int.lnot mask) else Int.land num mask)
  else num

/-- `bigEndianByteAt`: the byte at position `n`, the lowest being 0. -/
def bigEndianByteAt (x : ℤ) (n : ℕ) : ℤ :=
  if (bigWords x).length ≤ n / 8 then 0 else ((bigWords x).getD (n / 8) 0 / 2 ^ (8 * (n % 8)) % 256 : ℕ)

/-- `math.Byte`. -/
def mathByte (x : ℤ) (padlength n : ℕ) : ℤ :=
  if padlength ≤ n then 0 else bigEndianByteAt x (padlength - 1 - n)

/-- The value of `opByte`. -/
def byte (th val : ℤ) : ℤ := if th < 32 then mathByte val 32 th.toNat else 0

/-- A comparison of signed words, by the sign first; `less` compares words of one sign. -/
def signedCompare (less : ℤ → ℤ → Bool) (neg pos : ℤ) (x y : ℤ) : ℤ :=
  if 2 ^ 255 ≤ x ∧ y < 2 ^ 255 then neg
  else if x < 2 ^ 255 ∧ 2 ^ 255 ≤ y then pos
  else if less x y then 1 else 0

/-- The value of `opSlt`. -/
def slt : ℤ → ℤ → ℤ := signedCompare (fun x y => x < y) 1 0

/-- The value of `opSgt`. -/
def sgt : ℤ → ℤ → ℤ := signedCompare (fun x y => y < x) 0 1

/-- `common.Big256`. -/
def big256 : ℤ := 0xff

/-- `opSHL`. -/
def shl (shift value : ℤ) : ℤ :=
  if big256 ≤ u256 shift then 0 else u256 (u256 value * 2 ^ (u256 shift).toNat)

/-- `opSHR`. -/
def shr (shift value : ℤ) : ℤ :=
  if big256 ≤ u256 shift then 0 else u256 (u256 value / 2 ^ (u256 shift).toNat)

/-- `opSAR`.  For a shift of `big256` or more zero counts as negative. -/
def sar (shift value : ℤ) : ℤ :=
  if big256 ≤ u256 shift then u256 (if 0 < s256 value then 0 else -1)
  else u256 (s256 value / 2 ^ (u256 shift).toNat)

/-! ## What they should compute -/

/-- The operations. -/
inductive Arith where
  | add | sub | mul | div | sdiv | mod | smod | addmod | mulmod | exp | signExtend | byte
  | slt | sgt | shl | shr | sar
  deriving DecidableEq

namespace Arith

/-- The number of operands. -/
def arity : Arith → ℕ
  | addmod | mulmod => 3
  | _ => 2

/-- The value an operation leaves. -/
def value : Arith → ℤ → ℤ → ℤ → ℤ
  | add, x, y, _ => Vm.add x y
  | sub, x, y, _ => Vm.sub x y
  | mul, x, y, _ => Vm.mul x y
  | div, x, y, _ => Vm.div x y
  | sdiv, x, y, _ => Vm.sdiv x y
  | mod, x, y, _ => Vm.mod x y
  | smod, x, y, _ => Vm.smod x y
  | addmod, x, y, z => Vm.addmod x y z
  | mulmod, x, y, z => Vm.mulmod x y z
  | exp, x, y, _ => Vm.exp x y
  | signExtend, x, y, _ => Vm.signExtend x y
  | byte, x, y, _ => Vm.byte x y
  | slt, x, y, _ => Vm.slt x y
  | sgt, x, y, _ => Vm.sgt x y
  | shl, x, y, _ => Vm.shl x y
  | shr, x, y, _ => Vm.shr x y
  | sar, x, y, _ => Vm.sar x y

/-- Signed operands are two's complement; sums and products are not cut before their modulus is
taken; `SAR` rounds towards minus infinity. -/
def spec : Arith → ℤ → ℤ → ℤ → ℤ
  | add, x, y, _ => (x + y) % 2 ^ 256
  | sub, x, y, _ => (x - y) % 2 ^ 256
  | mul, x, y, _ => x * y % 2 ^ 256
  | div, x, y, _ => if y = 0 then 0 else x / y
  | sdiv, x, y, _ => if y = 0 then 0 else (s256 x).tdiv (s256 y) % 2 ^ 256
  | mod, x, y, _ => if y = 0 then 0 else x % y
  | smod, x, y, _ => if y = 0 then 0 else (s256 x).tmod (s256 y) % 2 ^ 256
  | addmod, x, y, z => if z = 0 then 0 else (x + y) % z
  | mulmod, x, y, z => if z = 0 then 0 else x * y % z
  | exp, x, y, _ => x ^ y.toNat % 2 ^ 256
  | signExtend, k, x, _ => if k < 31 then x.bmod (2 ^ (8 * (k.toNat + 1))) % 2 ^ 256 else x
  | byte, i, x, _ => if i < 32 then x / 256 ^ (31 - i.toNat) % 256 else 0
  | slt, x, y, _ => if s256 x < s256 y then 1 else 0
  | sgt, x, y, _ => if s256 y < s256 x then 1 else 0
  | shl, n, x, _ => x * 2 ^ n.toNat % 2 ^ 256
  | shr, n, x, _ => x / 2 ^ n.toNat
  | sar, n, x, _ => s256 x / 2 ^ n.toNat % 2 ^ 256

/-- Where an instruction goes wrong: a shift by 255 that has one bit to keep, and an arithmetic
shift of zero by 255 or more. -/
def Missed : Arith → ℤ → ℤ → Prop
  | shl, n, x => n = 255 ∧ x % 2 = 1
  | shr, n, x => n = 255 ∧ 2 ^ 255 ≤ x
  | sar, n, x => 255 ≤ n ∧ x = 0
  | _, _, _ => False

end Arith

theorem s256_bounds {x : ℤ} (h : IsWord x) : -2 ^ 255 ≤ s256 x ∧ s256 x < 2 ^ 255 := by
  obtain ⟨low, high⟩ := h
  unfold s256
  split_ifs <;> omega

theorem s256_eq_zero {x : ℤ} (h : IsWord x) : s256 x = 0 ↔ x = 0 := by
  obtain ⟨low, high⟩ := h
  unfold s256
  split_ifs <;> omega

theorem tdiv_eq_abs {a b : ℤ} (ha : a ≠ 0) (hb : b ≠ 0) :
    a.tdiv b = if a.sign ≠ b.sign then -(|a| / |b|) else |a| / |b| := by
  have positive {c d : ℤ} (hc : 0 < c) : c.tdiv d = c / d := Int.tdiv_eq_ediv_of_nonneg hc.le
  rcases ha.lt_or_gt with a0 | a0 <;> rcases hb.lt_or_gt with b0 | b0
  · have neg : a.tdiv b = (-a).tdiv (-b) := by rw [Int.neg_tdiv, Int.tdiv_neg, neg_neg]
    rw [neg, positive (neg_pos.2 a0), Int.sign_eq_neg_one_of_neg a0, Int.sign_eq_neg_one_of_neg b0,
      abs_of_neg a0, abs_of_neg b0]
    rfl
  · have neg : a.tdiv b = -((-a).tdiv b) := by rw [Int.neg_tdiv, neg_neg]
    rw [neg, positive (neg_pos.2 a0), Int.sign_eq_neg_one_of_neg a0, Int.sign_eq_one_of_pos b0,
      abs_of_neg a0, abs_of_pos b0]
    rfl
  · have neg : a.tdiv b = -(a.tdiv (-b)) := by rw [Int.tdiv_neg, neg_neg]
    rw [neg, positive a0, Int.sign_eq_one_of_pos a0, Int.sign_eq_neg_one_of_neg b0,
      abs_of_pos a0, abs_of_neg b0]
    rfl
  · rw [positive a0, Int.sign_eq_one_of_pos a0, Int.sign_eq_one_of_pos b0, abs_of_pos a0,
      abs_of_pos b0]
    rfl

theorem tmod_eq_abs (a b : ℤ) : a.tmod b = if a < 0 then -(|a| % |b|) else |a| % |b| := by
  have nonneg {c : ℤ} (hc : 0 ≤ c) : c.tmod b = c % |b| := by
    rw [Int.tmod_eq_emod_of_nonneg hc, Int.emod_abs]
  split_ifs with a0
  · have neg : a.tmod b = -((-a).tmod b) := by rw [Int.neg_tmod, neg_neg]
    rw [neg, nonneg (neg_nonneg.2 a0.le), abs_of_neg a0]
  · rw [nonneg (not_lt.1 a0), abs_of_nonneg (not_lt.1 a0)]

/-! ## Powers -/

theorem expBits_modEq (n word : ℕ) (result base : ℤ) :
    (expBits n word (result, base)).1 ≡ result * base ^ (word % 2 ^ n) [ZMOD 2 ^ 256] ∧
      (expBits n word (result, base)).2 ≡ base ^ 2 ^ n [ZMOD 2 ^ 256] := by
  induction n generalizing word result base with
  | zero => simp [expBits, Nat.mod_one, Int.ModEq.refl]
  | succ n ih =>
    have square : u256 (base * base) ≡ base ^ 2 [ZMOD 2 ^ 256] := by
      rw [u256_eq, sq]
      exact Int.mod_modEq _ _
    -- One bit of the word and the rest of it.
    have word_eq : word % 2 ^ (n + 1) = word % 2 + 2 * (word / 2 % 2 ^ n) := by
      rw [pow_succ', Nat.mod_mul]
    have first : (if word % 2 = 1 then u256 (result * base) else result) ≡
        result * base ^ (word % 2) [ZMOD 2 ^ 256] := by
      split_ifs with odd
      · rw [odd, pow_one, u256_eq]
        exact Int.mod_modEq _ _
      · rw [Nat.mod_two_ne_one.1 odd, pow_zero, mul_one]
    obtain ⟨hresult, hbase⟩ := ih (word / 2) (if word % 2 = 1 then u256 (result * base) else result)
      (u256 (base * base))
    refine ⟨hresult.trans ?_, hbase.trans ?_⟩
    · rw [word_eq, pow_add, pow_mul, ← mul_assoc]
      exact first.mul (square.pow _)
    · rw [show 2 ^ (n + 1) = 2 * 2 ^ n from pow_succ' 2 n, pow_mul]
      exact square.pow _

theorem foldl_expBits_modEq {n : ℕ} (words : List ℕ) (small : ∀ w ∈ words, w < 2 ^ n)
    (result base : ℤ) : (words.foldl (fun acc word => expBits n word acc) (result, base)).1 ≡
      result * base ^ Nat.ofDigits (2 ^ n) words [ZMOD 2 ^ 256] := by
  induction words generalizing result base with
  | nil => simp [Nat.ofDigits, Int.ModEq.refl]
  | cons word words ih =>
    obtain ⟨hresult, hbase⟩ := expBits_modEq n word result base
    rw [Nat.mod_eq_of_lt (small word List.mem_cons_self)] at hresult
    rw [List.foldl_cons, Nat.ofDigits_cons, pow_add, pow_mul, ← mul_assoc]
    exact (ih (fun w hw => small w (List.mem_cons_of_mem _ hw)) _ _).trans
      (hresult.mul (hbase.pow _))

theorem isWord_expBits (n word : ℕ) {acc : ℤ × ℤ} (h : IsWord acc.1) :
    IsWord (expBits n word acc).1 := by
  induction n generalizing word acc with
  | zero => exact h
  | succ n ih =>
    refine ih _ ?_
    split_ifs
    · exact isWord_u256 _
    · exact h

theorem isWord_exp (base exponent : ℤ) : IsWord (exp base exponent) := by
  have steps : ∀ (words : List ℕ) (acc : ℤ × ℤ), IsWord acc.1 →
      IsWord (words.foldl (fun acc word => expBits 64 word acc) acc).1 := by
    intro words
    induction words with
    | nil => exact fun _ h => h
    | cons word words ih => exact fun acc h => ih _ (isWord_expBits 64 word h)
  exact steps _ _ ⟨by norm_num, by norm_num⟩

theorem exp_eq {base exponent : ℤ} (h : 0 ≤ exponent) :
    exp base exponent = base ^ exponent.toNat % 2 ^ 256 := by
  have modEq := foldl_expBits_modEq (n := 64) (bigWords exponent)
    (fun w hw => Nat.digits_lt_base (by norm_num) hw) 1 base
  rw [bigWords, Nat.ofDigits_digits, one_mul] at modEq
  have word := isWord_exp base exponent
  calc exp base exponent = exp base exponent % 2 ^ 256 := (Int.emod_eq_of_lt word.1 word.2).symm
    _ = base ^ exponent.natAbs % 2 ^ 256 := modEq
    _ = base ^ exponent.toNat % 2 ^ 256 := by rw [show exponent.natAbs = exponent.toNat by omega]

/-! ## One instruction after the other -/

section Values

variable {x y z : ℤ}

theorem div_eq (hx : IsWord x) (hy : IsWord y) : div x y = if y = 0 then 0 else x / y := by
  unfold div
  by_cases zero : y = 0
  · simp [zero]
  · rw [if_pos zero, if_neg zero, u256_of_isWord ⟨Int.ediv_nonneg hx.1 hy.1, ?_⟩]
    exact (Int.ediv_le_self y hx.1).trans_lt hx.2

theorem sdiv_eq (hx : IsWord x) (hy : IsWord y) :
    sdiv x y = if y = 0 then 0 else (s256 x).tdiv (s256 y) % 2 ^ 256 := by
  unfold sdiv
  by_cases y0 : y = 0
  · rw [if_pos (.inl ((s256_eq_zero hy).2 y0)), if_pos y0]
  rw [if_neg y0]
  by_cases x0 : x = 0
  · rw [if_pos (.inr ((s256_eq_zero hx).2 x0)), (s256_eq_zero hx).2 x0, Int.zero_tdiv]
    rfl
  have hx0 := mt (s256_eq_zero hx).1 x0
  have hy0 := mt (s256_eq_zero hy).1 y0
  rw [if_neg (not_or.2 ⟨hy0, hx0⟩), tdiv_eq_abs hx0 hy0]
  split_ifs <;> exact u256_eq _

theorem mod_eq (hy : IsWord y) : mod x y = if y = 0 then 0 else x % y := by
  unfold mod
  by_cases zero : y = 0
  · rw [if_pos zero, if_pos zero]
  · rw [if_neg zero, if_neg zero, u256_of_isWord ⟨Int.emod_nonneg _ zero, ?_⟩]
    exact (Int.emod_lt_of_pos _ (lt_of_le_of_ne hy.1 (Ne.symm zero))).trans hy.2

theorem smod_eq (hy : IsWord y) :
    smod x y = if y = 0 then 0 else (s256 x).tmod (s256 y) % 2 ^ 256 := by
  unfold smod
  by_cases y0 : y = 0
  · rw [if_pos ((s256_eq_zero hy).2 y0), if_pos y0]
  · rw [if_neg (mt (s256_eq_zero hy).1 y0), if_neg y0, tmod_eq_abs]
    split_ifs <;> exact u256_eq _

theorem u256_emod (hz : IsWord z) :
    (if 0 < z then u256 (x % z) else 0) = if z = 0 then 0 else x % z := by
  by_cases zero : z = 0
  · rw [if_pos zero, if_neg (by omega)]
  · have pos : 0 < z := lt_of_le_of_ne hz.1 (Ne.symm zero)
    rw [if_pos pos, if_neg zero, u256_of_isWord ⟨Int.emod_nonneg _ zero, ?_⟩]
    exact (Int.emod_lt_of_pos _ pos).trans hz.2

theorem extend_eq (m bit : ℕ) :
    (if Int.testBit m bit then Int.lor m (Int.lnot (2 ^ bit - 1)) else Int.land m (2 ^ bit - 1)) =
      Int.bmod m (2 ^ (bit + 1)) := by
  have pos := Nat.two_pow_pos bit
  have low : m % 2 ^ bit < 2 ^ bit := Nat.mod_lt _ pos
  have parts : m % 2 ^ (bit + 1) = m % 2 ^ bit + 2 ^ bit * (m / 2 ^ bit % 2) := Nat.mod_pow_succ
  have half : (2 ^ (bit + 1) + 1) / 2 = 2 ^ bit := by
    omega
  have test : Int.testBit m bit = decide (m / 2 ^ bit % 2 = 1) := Nat.testBit_eq_decide_div_mod_eq
  have mask : ((2 : ℤ) ^ bit - 1) = ((2 ^ bit - 1 : ℕ) : ℤ) := by
    rw [Nat.cast_sub pos]
    rfl
  have residue : (m : ℤ) % ((2 ^ (bit + 1) : ℕ) : ℤ) = ((m % 2 ^ (bit + 1) : ℕ) : ℤ) := rfl
  have halfInt : (((2 ^ (bit + 1) : ℕ) : ℤ) + 1) / 2 = ((2 ^ bit : ℕ) : ℤ) := by
    rw [← half]
    rfl
  rw [test, Int.bmod, residue, halfInt]
  by_cases sign : m / 2 ^ bit % 2 = 1
  · rw [sign, mul_one] at parts
    rw [if_pos (by simpa using sign), mask, parts, if_neg (by push_cast; omega)]
    show Int.negSucc (Nat.ldiff (2 ^ bit - 1) m) = _
    rw [ldiff_mask, Int.negSucc_eq, Nat.sub_sub, Nat.cast_sub (by omega), pow_succ]
    push_cast
    ring
  · have zero : m / 2 ^ bit % 2 = 0 := by omega
    rw [zero, mul_zero, add_zero] at parts
    rw [if_neg (by simpa using sign), land_mask, parts, if_pos (by exact_mod_cast low)]
    rfl

theorem signExtend_eq (hy : IsWord y) :
    signExtend x y = if x < 31 then y.bmod (2 ^ (8 * (x.toNat + 1))) % 2 ^ 256 else y := by
  obtain ⟨m, rfl⟩ := Int.eq_ofNat_of_zero_le hy.1
  unfold signExtend
  split_ifs with small
  · dsimp only
    rw [extend_eq, u256_eq, show x.toNat * 8 + 7 + 1 = 8 * (x.toNat + 1) by ring]
  · rfl

theorem bigEndianByteAt_eq (m n : ℕ) : bigEndianByteAt m n = m / 256 ^ n % 256 := by
  have digit : (bigWords m).getD (n / 8) 0 = m / (2 ^ 64) ^ (n / 8) % 2 ^ 64 :=
    Nat.getD_digits m (n / 8) (by norm_num)
  have whole : (256 : ℕ) ^ n = (2 ^ 64) ^ (n / 8) * 2 ^ (8 * (n % 8)) := by
    rw [show (256 : ℕ) = 2 ^ 8 by norm_num, ← pow_mul, ← pow_mul, ← pow_add]
    congr 1
    omega
  have value : ((bigWords m).getD (n / 8) 0 / 2 ^ (8 * (n % 8)) % 256 : ℕ) = m / 256 ^ n % 256 := by
    have room : 2 ^ 64 = 2 ^ (8 * (n % 8)) * (256 * 2 ^ (56 - 8 * (n % 8))) := by
      rw [show (256 : ℕ) = 2 ^ 8 by norm_num, ← pow_add, ← pow_add]
      congr 1
      omega
    rw [digit, whole, ← Nat.div_div_eq_div_mul]
    rw [room, Nat.mod_mul_right_div_self, Nat.mod_mul_right_mod]
  unfold bigEndianByteAt
  split_ifs with beyond
  · rw [List.getD_eq_default _ _ beyond, Nat.zero_div, Nat.zero_mod] at value
    exact_mod_cast value
  · rw [value]
    rfl

theorem byte_eq (hx : 0 ≤ x) (hy : IsWord y) :
    byte x y = if x < 32 then y / 256 ^ (31 - x.toNat) % 256 else 0 := by
  obtain ⟨m, rfl⟩ := Int.eq_ofNat_of_zero_le hy.1
  unfold byte mathByte
  split_ifs with small beyond
  · omega
  · exact bigEndianByteAt_eq m _
  · rfl

theorem slt_eq (hx : IsWord x) (hy : IsWord y) : slt x y = if s256 x < s256 y then 1 else 0 := by
  obtain ⟨x0, x1⟩ := hx
  obtain ⟨y0, y1⟩ := hy
  unfold slt signedCompare s256
  simp only [decide_eq_true_eq]
  split_ifs <;> first | rfl | omega

theorem sgt_eq (hx : IsWord x) (hy : IsWord y) : sgt x y = if s256 y < s256 x then 1 else 0 := by
  obtain ⟨x0, x1⟩ := hx
  obtain ⟨y0, y1⟩ := hy
  unfold sgt signedCompare s256
  simp only [decide_eq_true_eq]
  split_ifs <;> first | rfl | omega

theorem two_pow_le {n : ℤ} {k : ℕ} (h : k ≤ n) : (2 : ℤ) ^ k ≤ 2 ^ n.toNat :=
  pow_le_pow_right₀ (by norm_num) (by omega)

theorem shl_eq_iff (hx : IsWord x) (hy : IsWord y) :
    shl x y = y * 2 ^ x.toNat % 2 ^ 256 ↔ ¬ (x = 255 ∧ y % 2 = 1) := by
  unfold shl big256
  rw [u256_of_isWord hx, u256_of_isWord hy]
  split_ifs with large
  · by_cases last : x = 255
    · -- the lowest bit of the operand is the highest of the result
      rw [last, show (255 : ℤ).toNat = 255 from rfl]
      omega
    · have split : x.toNat = 256 + (x.toNat - 256) := by omega
      rw [split, pow_add, ← mul_assoc, mul_right_comm, Int.mul_emod_left]
      exact iff_of_true rfl fun h => last h.1
  · exact iff_of_true (u256_eq _) fun h => large (by omega)

theorem shr_eq_iff (hx : IsWord x) (hy : IsWord y) :
    shr x y = y / 2 ^ x.toNat ↔ ¬ (x = 255 ∧ 2 ^ 255 ≤ y) := by
  obtain ⟨nonneg, lt⟩ := hy
  unfold shr big256
  rw [u256_of_isWord hx, u256_of_isWord ⟨nonneg, lt⟩]
  split_ifs with large
  · by_cases last : x = 255
    · -- the highest bit of the operand is the lowest of the result
      rw [last, show (255 : ℤ).toNat = 255 from rfl]
      omega
    · have room := two_pow_le (show ((256 : ℕ) : ℤ) ≤ x by omega)
      rw [Int.ediv_eq_zero_of_lt nonneg (lt.trans_le room)]
      exact iff_of_true rfl fun h => last h.1
  · refine iff_of_true (u256_of_isWord ⟨Int.ediv_nonneg nonneg (by positivity), ?_⟩)
      fun h => large (by omega)
    exact (Int.ediv_le_self _ nonneg).trans_lt lt

theorem sar_eq_iff (hx : IsWord x) (hy : IsWord y) :
    sar x y = s256 y / 2 ^ x.toNat % 2 ^ 256 ↔ ¬ (255 ≤ x ∧ y = 0) := by
  unfold sar big256
  rw [u256_of_isWord hx]
  by_cases large : 255 ≤ x
  · rw [if_pos large]
    have bounds := s256_bounds hy
    have room := two_pow_le (k := 255) large
    rcases lt_trichotomy (s256 y) 0 with neg | zero | pos
    · have minus : s256 y / 2 ^ x.toNat = -1 := by
        refine Int.ediv_eq_neg_one_of_neg_of_le neg ?_
        omega
      have ne : y ≠ 0 := fun h => neg.ne ((s256_eq_zero hy).2 h)
      rw [if_neg neg.not_gt, minus]
      exact iff_of_true (u256_eq _) fun h => ne h.2
    · rw [zero, (s256_eq_zero hy).1 zero, u256_eq, Int.zero_ediv]
      norm_num [large]
    · have none : s256 y / 2 ^ x.toNat = 0 := Int.ediv_eq_zero_of_lt pos.le (by omega)
      have ne : y ≠ 0 := fun h => pos.ne' ((s256_eq_zero hy).2 h)
      rw [if_pos pos, none]
      exact iff_of_true (u256_eq _) fun h => ne h.2
  · rw [if_neg large]
    exact iff_of_true (u256_eq _) fun h => large h.1

theorem value_eq_spec_iff (op : Arith) (hx : IsWord x) (hy : IsWord y) (hz : IsWord z) :
    op.value x y z = op.spec x y z ↔ ¬ op.Missed x y := by
  cases op with
  | add | sub | mul => exact iff_of_true (u256_eq _) id
  | div => exact iff_of_true (div_eq hx hy) id
  | sdiv => exact iff_of_true (sdiv_eq hx hy) id
  | mod => exact iff_of_true (mod_eq hy) id
  | smod => exact iff_of_true (smod_eq hy) id
  | addmod | mulmod => exact iff_of_true (u256_emod hz) id
  | exp => exact iff_of_true (exp_eq hy.1) id
  | signExtend => exact iff_of_true (signExtend_eq hy) id
  | byte => exact iff_of_true (byte_eq hx.1 hy) id
  | slt => exact iff_of_true (slt_eq hx hy) id
  | sgt => exact iff_of_true (sgt_eq hx hy) id
  | shl => exact shl_eq_iff hx hy
  | shr => exact shr_eq_iff hx hy
  | sar => exact sar_eq_iff hx hy

theorem isWord_value (op : Arith) (hx : IsWord x) (hy : IsWord y) : IsWord (op.value x y z) := by
  have zero : IsWord 0 := by decide
  have one : IsWord 1 := by decide
  cases op with
  | add | sub | mul => exact isWord_u256 _
  | exp => exact isWord_exp _ _
  | div | sdiv | mod | smod | addmod | mulmod | shl | shr | sar =>
    simp only [Arith.value, div, sdiv, mod, smod, addmod, mulmod, shl, shr, sar]
    split_ifs <;> first | exact isWord_u256 _ | exact zero
  | signExtend =>
    simp only [Arith.value, signExtend]
    split_ifs <;> first | exact isWord_u256 _ | exact hy
  | byte =>
    show IsWord (byte x y)
    rw [byte_eq hx.1 hy]
    split_ifs
    · exact ⟨Int.emod_nonneg _ (by norm_num), (Int.emod_lt_of_pos _ (by norm_num)).trans (by norm_num)⟩
    · exact zero
  | slt | sgt =>
    simp only [Arith.value, slt, sgt, signedCompare]
    split_ifs <;> first | exact zero | exact one

end Values

end JuChain.Vm
