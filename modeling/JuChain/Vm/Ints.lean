import JuChain.Vm.Arithmetic

/-!
# Arithmetic in place

The instructions of `Vm.Arithmetic` as the interpreter runs them: operands are pointers to big
integers, results are written over an operand or into an integer of the pool (`intpool.go`), and
operands that are done with go back to it.  Every instruction leaves one value on the stack and
changes no integer that is held anywhere else (`Arith.leaves`).
-/

namespace JuChain.Vm

open Cells

/-- `intPool.put`. -/
def put (rs : List Ref) : Prog ℤ Unit := give 256 rs

/-- `intPool.getZero`. -/
def getZero : Prog ℤ Ref := do
  let r ← take 0
  write r 0
  pure r

/-- `math.S256` gives back its argument, or a new integer. -/
def s256Ref (r : Ref) : Prog ℤ Ref := do
  let v ← read r
  if v < 2 ^ 255 then pure r else alloc (v - 2 ^ 256)

/-- The second operand stays on the stack and takes the result. -/
def peekOp (f : ℤ → ℤ → ℤ) : Prog ℤ Unit := do
  let x ← pop
  let y ← peek
  write y (f (← read x) (← read y))
  put [x]

def opAdd : Prog ℤ Unit := peekOp add

def opSub : Prog ℤ Unit := peekOp sub

def opDiv : Prog ℤ Unit := peekOp div

def opSlt : Prog ℤ Unit := peekOp slt

def opSgt : Prog ℤ Unit := peekOp sgt

def opByte : Prog ℤ Unit := peekOp byte

/-- Both operands are popped and the first takes the result. -/
def popOp (f : ℤ → ℤ → ℤ) : Prog ℤ Unit := do
  let x ← pop
  let y ← pop
  write x (f (← read x) (← read y))
  push x
  put [y]

def opMul : Prog ℤ Unit := popOp mul

def opMod : Prog ℤ Unit := popOp mod

/-- Three operands are popped. -/
def ternaryOp (f : ℤ → ℤ → ℤ → ℤ) : Prog ℤ Unit := do
  let x ← pop
  let y ← pop
  let z ← pop
  write x (f (← read x) (← read y) (← read z))
  push x
  put [y, z]

def opAddmod : Prog ℤ Unit := ternaryOp addmod

def opMulmod : Prog ℤ Unit := ternaryOp mulmod

/-- `opSdiv` and `opSmod`: the operands become absolute values, the result goes into an integer of
the pool, negated when `neg` says so. -/
def signedOp (zero neg : ℤ → ℤ → Bool) (f : ℤ → ℤ → ℤ) : Prog ℤ Unit := do
  let x ← s256Ref (← pop)
  let y ← s256Ref (← pop)
  let res ← getZero
  let vx ← read x
  let vy ← read y
  if zero vx vy then push res
  else do
    write x |vx|
    write y |vy|
    write res (f (← read x) (← read y))
    if neg vx vy then write res (-(← read res))
    write res (u256 (← read res))
    push res
  put [x, y]

def opSdiv : Prog ℤ Unit :=
  signedOp (fun x y => y = 0 ∨ x = 0) (fun x y => x.sign ≠ y.sign) (· / ·)

def opSmod : Prog ℤ Unit := signedOp (fun _ y => y = 0) (fun x _ => x < 0) (· % ·)

/-- `opExp`: the base is squared in place, and the result is a new integer. -/
def opExp : Prog ℤ Unit := do
  let base ← pop
  let exponent ← pop
  let power := mathExp (← read base) (← read exponent)
  write base power.2
  push (← alloc power.1)
  put [base, exponent]

/-- `opSignExtend` builds the mask in the first operand; for a large one the second is not popped.
-/
def opSignExtend : Prog ℤ Unit := do
  let back ← pop
  let k ← read back
  if k < 31 then do
    let num ← pop
    let v ← read num
    let bit := k.toNat * 8 + 7
    write back (2 ^ bit)
    write back ((← read back) - 1)
    if v.testBit bit then do
      write back (Int.lnot (← read back))
      write num (Int.lor v (← read back))
    else write num (Int.land v (← read back))
    write num (u256 (← read num))
    push num
    put [back]
  else put [back]

/-- `opSHL` and `opSHR`. -/
def shiftOp (f : ℤ → ℕ → ℤ) : Prog ℤ Unit := do
  let shift ← pop
  write shift (u256 (← read shift))
  let value ← peek
  write value (u256 (← read value))
  let n ← read shift
  if big256 ≤ n then write value 0 else write value (u256 (f (← read value) n.toNat))
  put [shift]

def opSHL : Prog ℤ Unit := shiftOp fun v n => v * 2 ^ n

def opSHR : Prog ℤ Unit := shiftOp fun v n => v / 2 ^ n

def opSAR : Prog ℤ Unit := do
  let shift ← pop
  write shift (u256 (← read shift))
  let value ← s256Ref (← pop)
  let n ← read shift
  let v ← read value
  if big256 ≤ n then write value (if 0 < v then 0 else -1) else write value (v / 2 ^ n.toNat)
  write value (u256 (← read value))
  push value
  put [shift]

/-- The program of an operation. -/
def Arith.op : Arith → Prog ℤ Unit
  | add => opAdd
  | sub => opSub
  | mul => opMul
  | div => opDiv
  | sdiv => opSdiv
  | mod => opMod
  | smod => opSmod
  | addmod => opAddmod
  | mulmod => opMulmod
  | exp => opExp
  | signExtend => opSignExtend
  | byte => opByte
  | slt => opSlt
  | sgt => opSgt
  | shl => opSHL
  | shr => opSHR
  | sar => opSAR

/-! ## Each instruction leaves its value -/

section Leaves

variable {s : Store ℤ} {x y z : ℤ} {vs : List ℤ} {held : List (Ref × ℤ)} {rs : List Ref}

/-- The program ends with these values on the stack. -/
def Ends (p : Prog ℤ Unit) (s : Store ℤ) (vs : List ℤ) (held : List (Ref × ℤ)) : Prop :=
  ∃ s', p s = some ((), s') ∧ Own s' vs held

theorem Ends.bind {β : Type} {m : Prog ℤ β} {f : β → Prog ℤ Unit} {s₁ : Store ℤ} {b : β}
    (h : m s = some (b, s₁)) (rest : Ends (f b) s₁ vs held) : Ends (m >>= f) s vs held := by
  obtain ⟨s', ran, own⟩ := rest
  exact ⟨s', by rw [run_bind h, ran], own⟩

theorem ends_put (given : List (Ref × ℤ)) (own : Own s vs (given ++ held))
    (hrs : rs = given.map Prod.fst) : Ends (put rs) s vs held := by
  obtain ⟨s', gave, own'⟩ := own.give 256 (List.Perm.of_eq hrs)
  exact ⟨s', gave, own'⟩

/-- The result is cut to a word and pushed. -/
theorem ends_finish {r : Ref} {w : ℤ} (given : List (Ref × ℤ))
    (own : Own s vs ((r, w) :: (given ++ held))) (hrs : rs.Perm (given.map Prod.fst)) :
    Ends (do write r (u256 (← read r)); push r; put rs) s (u256 w :: vs) held := by
  obtain ⟨s₁, written, own₁⟩ := own.write (u256 w)
  obtain ⟨s₂, pushed, own₂⟩ := own₁.push
  obtain ⟨s₃, gave, own₃⟩ := own₂.give 256 hrs
  exact .bind own.readFirst (.bind written (.bind pushed ⟨s₃, gave, own₃⟩))

theorem own_getZero (own : Own s vs held) :
    ∃ r s', getZero s = some (r, s') ∧ Own s' vs ((r, 0) :: held) := by
  obtain ⟨r, v, s₁, took, own₁⟩ := own.take 0
  obtain ⟨s₂, written, own₂⟩ := own₁.write 0
  refine ⟨r, s₂, ?_, own₂⟩
  rw [getZero, run_bind took, run_bind written]
  rfl

theorem own_s256Ref {r : Ref} (own : Own s vs ((r, x) :: held)) :
    ∃ r' s', s256Ref r s = some (r', s') ∧ Own s' vs ((r', s256 x) :: held) := by
  unfold s256Ref s256
  rw [run_bind own.readFirst]
  split_ifs with pos
  · exact ⟨r, s, rfl, own⟩
  · obtain ⟨r', s', new, own'⟩ := own.alloc (x - 2 ^ 256)
    exact ⟨r', s', new, own'.swap.forget [(r, x)]⟩

theorem leaves_peekOp (f : ℤ → ℤ → ℤ) (own : Own s (x :: y :: vs) held) :
    Ends (peekOp f) s (f x y :: vs) held := by
  obtain ⟨rx, s₁, popped, own₁⟩ := own.pop
  obtain ⟨ry, peeked, readTop, writeTop⟩ := own₁.peek
  obtain ⟨s₂, written, own₂, -⟩ := writeTop (f x y)
  refine .bind popped (.bind peeked (.bind own₁.readFirst (.bind readTop ?_)))
  exact .bind written (ends_put [(rx, x)] own₂ rfl)

theorem leaves_popOp (f : ℤ → ℤ → ℤ) (own : Own s (x :: y :: vs) held) :
    Ends (popOp f) s (f x y :: vs) held := by
  obtain ⟨rx, s₁, popped, own₁⟩ := own.pop
  obtain ⟨ry, s₂, popped', own₂⟩ := own₁.pop
  obtain ⟨s₃, written, own₃⟩ := own₂.swap.write (f x y)
  obtain ⟨s₄, pushed, own₄⟩ := own₃.push
  refine .bind popped (.bind popped' (.bind own₂.readSecond (.bind own₂.readFirst ?_)))
  exact .bind written (.bind pushed (ends_put [(ry, y)] own₄ rfl))

theorem leaves_ternaryOp (f : ℤ → ℤ → ℤ → ℤ) (own : Own s (x :: y :: z :: vs) held) :
    Ends (ternaryOp f) s (f x y z :: vs) held := by
  obtain ⟨rx, s₁, popped, own₁⟩ := own.pop
  obtain ⟨ry, s₂, popped', own₂⟩ := own₁.pop
  obtain ⟨rz, s₃, popped'', own₃⟩ := own₂.pop
  have own₃' : Own s₃ vs ((rx, x) :: (ry, y) :: (rz, z) :: held) :=
    own₃.perm (List.reverse_perm [(rz, z), (ry, y), (rx, x)] |>.append_right held)
  obtain ⟨s₄, written, own₄⟩ := own₃'.write (f x y z)
  obtain ⟨s₅, pushed, own₅⟩ := own₄.push
  refine .bind popped (.bind popped' (.bind popped'' (.bind own₃.readThird ?_)))
  refine .bind own₃.readSecond (.bind own₃.readFirst (.bind written (.bind pushed ?_)))
  exact ends_put [(ry, y), (rz, z)] own₅ rfl

theorem leaves_signedOp (zero neg : ℤ → ℤ → Bool) (f : ℤ → ℤ → ℤ) (own : Own s (x :: y :: vs) held) :
    Ends (signedOp zero neg f) s ((if zero (s256 x) (s256 y) then 0
      else if neg (s256 x) (s256 y) then u256 (-f |s256 x| |s256 y|)
      else u256 (f |s256 x| |s256 y|)) :: vs) held := by
  obtain ⟨rx', s₁, popped, own₁⟩ := own.pop
  obtain ⟨rx, s₂, signed, own₂⟩ := own_s256Ref own₁
  obtain ⟨ry', s₃, popped', own₃⟩ := own₂.pop
  obtain ⟨ry, s₄, signed', own₄⟩ := own_s256Ref own₃
  obtain ⟨rr, s₅, got, own₅⟩ := own_getZero own₄
  refine .bind popped (.bind signed (.bind popped' (.bind signed' (.bind got ?_))))
  refine .bind own₅.readThird (.bind own₅.readSecond ?_)
  by_cases hz : zero (s256 x) (s256 y)
  · rw [if_pos hz, if_pos hz]
    obtain ⟨s₆, pushed, own₆⟩ := own₅.push
    exact .bind pushed (ends_put [(rx, s256 x), (ry, s256 y)] own₆.swap rfl)
  · rw [if_neg hz, if_neg hz]
    obtain ⟨s₆, wroteX, own₆⟩ := own₅.writeThird |s256 x|
    obtain ⟨s₇, wroteY, own₇⟩ := own₆.writeSecond |s256 y|
    obtain ⟨s₈, wroteRes, own₈⟩ := own₇.write (f |s256 x| |s256 y|)
    refine .bind wroteX (.bind wroteY (.bind own₇.readThird (.bind own₇.readSecond ?_)))
    refine .bind wroteRes ?_
    by_cases hn : neg (s256 x) (s256 y)
    · obtain ⟨s₉, negated, own₉⟩ := own₈.write (-f |s256 x| |s256 y|)
      simp only [hn, if_true]
      exact .bind own₈.readFirst (.bind negated (ends_finish [(ry, _), (rx, _)] own₉ (.swap ..)))
    · simp only [hn]
      exact ends_finish [(ry, _), (rx, _)] own₈ (.swap ..)

theorem leaves_opExp (own : Own s (x :: y :: vs) held) : Ends opExp s (exp x y :: vs) held := by
  obtain ⟨rx, s₁, popped, own₁⟩ := own.pop
  obtain ⟨ry, s₂, popped', own₂⟩ := own₁.pop
  obtain ⟨s₃, squared, own₃⟩ := own₂.writeSecond (mathExp x y).2
  obtain ⟨rr, s₄, new, own₄⟩ := own₃.alloc (mathExp x y).1
  obtain ⟨s₅, pushed, own₅⟩ := own₄.push
  refine .bind popped (.bind popped' (.bind own₂.readSecond (.bind own₂.readFirst ?_)))
  refine .bind squared (.bind new (.bind pushed ?_))
  exact ends_put [(rx, (mathExp x y).2), (ry, y)] own₅.swap rfl

theorem leaves_opSignExtend (own : Own s (x :: y :: vs) held) :
    Ends opSignExtend s (signExtend x y :: vs) held := by
  obtain ⟨rx, s₁, popped, own₁⟩ := own.pop
  unfold opSignExtend signExtend
  refine .bind popped (.bind own₁.readFirst ?_)
  by_cases small : x < 31
  · rw [if_pos small, if_pos small]
    obtain ⟨ry, s₂, popped', own₂⟩ := own₁.pop
    obtain ⟨s₃, power, own₃⟩ := own₂.writeSecond (2 ^ (x.toNat * 8 + 7))
    obtain ⟨s₄, mask, own₄⟩ := own₃.writeSecond (2 ^ (x.toNat * 8 + 7) - 1)
    refine .bind popped' (.bind own₂.readFirst (.bind power ?_))
    refine .bind own₃.readSecond (.bind mask ?_)
    by_cases sign : y.testBit (x.toNat * 8 + 7)
    · obtain ⟨s₅, inverted, own₅⟩ := own₄.writeSecond (Int.lnot (2 ^ (x.toNat * 8 + 7) - 1))
      obtain ⟨s₆, joined, own₆⟩ := own₅.write (Int.lor y (Int.lnot (2 ^ (x.toNat * 8 + 7) - 1)))
      simp only [sign, if_true]
      refine .bind own₄.readSecond (.bind inverted (.bind own₅.readSecond (.bind joined ?_)))
      exact ends_finish [(rx, _)] own₆ (.refl _)
    · obtain ⟨s₅, cleared, own₅⟩ := own₄.write (Int.land y (2 ^ (x.toNat * 8 + 7) - 1))
      simp only [sign]
      exact .bind own₄.readSecond (.bind cleared (ends_finish [(rx, _)] own₅ (.refl _)))
  · rw [if_neg small, if_neg small]
    exact ends_put [(rx, x)] own₁ rfl

theorem leaves_shiftOp (f : ℤ → ℕ → ℤ) (own : Own s (x :: y :: vs) held) : Ends (shiftOp f) s
      ((if big256 ≤ u256 x then 0 else u256 (f (u256 y) (u256 x).toNat)) :: vs) held := by
  obtain ⟨rx, s₁, popped, own₁⟩ := own.pop
  obtain ⟨s₂, cut, own₂⟩ := own₁.write (u256 x)
  obtain ⟨ry, peeked, readTop, writeTop⟩ := own₂.peek
  obtain ⟨s₃, cut', own₃, peeked'⟩ := writeTop (u256 y)
  refine .bind popped (.bind own₁.readFirst (.bind cut (.bind peeked ?_)))
  refine .bind readTop (.bind cut' (.bind own₃.readFirst ?_))
  obtain ⟨ry', peeked'', readTop', writeTop'⟩ := own₃.peek
  obtain rfl : ry = ry' := by
    rw [peeked'] at peeked''
    simpa using peeked''
  by_cases large : big256 ≤ u256 x
  · rw [if_pos large, if_pos large]
    obtain ⟨s₄, written, own₄, -⟩ := writeTop' 0
    exact .bind written (ends_put [(rx, u256 x)] own₄ rfl)
  · rw [if_neg large, if_neg large]
    obtain ⟨s₄, written, own₄, -⟩ := writeTop' (u256 (f (u256 y) (u256 x).toNat))
    exact .bind readTop' (.bind written (ends_put [(rx, u256 x)] own₄ rfl))

theorem leaves_opSAR (own : Own s (x :: y :: vs) held) : Ends opSAR s (sar x y :: vs) held := by
  obtain ⟨rx, s₁, popped, own₁⟩ := own.pop
  obtain ⟨s₂, cut, own₂⟩ := own₁.write (u256 x)
  obtain ⟨ry', s₃, popped', own₃⟩ := own₂.pop
  obtain ⟨ry, s₄, signed, own₄⟩ := own_s256Ref own₃
  unfold opSAR sar
  refine .bind popped (.bind own₁.readFirst (.bind cut (.bind popped' (.bind signed ?_))))
  refine .bind own₄.readSecond (.bind own₄.readFirst ?_)
  by_cases large : big256 ≤ u256 x
  · rw [if_pos large, if_pos large]
    obtain ⟨s₅, written, own₅⟩ := own₄.write (if 0 < s256 y then 0 else -1)
    exact .bind written (ends_finish [(rx, _)] own₅ (.refl _))
  · rw [if_neg large, if_neg large]
    obtain ⟨s₅, written, own₅⟩ := own₄.write (s256 y / 2 ^ (u256 x).toNat)
    exact .bind written (ends_finish [(rx, _)] own₅ (.refl _))

theorem Arith.leaves (op : Arith) (own : Own s ([x, y, z].take op.arity ++ vs) held) :
    Ends op.op s (op.value x y z :: vs) held := by
  cases op with
  | add | sub => exact leaves_peekOp _ own
  | mul => exact leaves_popOp _ own
  | div => exact leaves_peekOp _ own
  | sdiv =>
    have ends := leaves_signedOp (fun x y => y = 0 ∨ x = 0) (fun x y => x.sign ≠ y.sign) (· / ·) own
    simp only [decide_eq_true_eq] at ends
    exact ends
  | mod => exact leaves_popOp _ own
  | smod =>
    have ends := leaves_signedOp (fun _ y => y = 0) (fun x _ => x < 0) (· % ·) own
    simp only [decide_eq_true_eq] at ends
    exact ends
  | addmod | mulmod => exact leaves_ternaryOp _ own
  | exp => exact leaves_opExp own
  | signExtend => exact leaves_opSignExtend own
  | byte | slt | sgt => exact leaves_peekOp _ own
  | shl => exact leaves_shiftOp (fun v n => v * 2 ^ n) own
  | shr => exact leaves_shiftOp (fun v n => v / 2 ^ n) own
  | sar => exact leaves_opSAR own

theorem Ends.values_unique {p : Prog ℤ Unit} {vs' : List ℤ} {held' : List (Ref × ℤ)}
    (h : Ends p s vs held) (h' : Ends p s vs' held') : vs = vs' := by
  obtain ⟨s₁, ran, own⟩ := h
  obtain ⟨s₂, ran', own'⟩ := h'
  rw [ran] at ran'
  cases ran'
  rw [← own.values, ← own'.values]

/-- An instruction leaves the word it should, and nothing else changes, exactly on the operands that
the bound of the shifts does not spoil. -/
theorem arith_meets_spec_iff (op : Arith) (hx : IsWord x) (hy : IsWord y) (hz : IsWord z)
    (own : Own s ([x, y, z].take op.arity ++ vs) held) :
    Ends op.op s (op.spec x y z :: vs) held ∧ IsWord (op.spec x y z) ↔ ¬ op.Missed x y := by
  rw [← value_eq_spec_iff op hx hy hz]
  constructor
  · rintro ⟨ends, -⟩
    exact List.head_eq_of_cons_eq ((op.leaves own).values_unique ends)
  · intro same
    rw [← same]
    exact ⟨op.leaves own, isWord_value op hx hy⟩

/-- The most negative number divided by minus one is itself again. -/
theorem sdiv_min_meets_spec :
    Ends opSdiv (Store.ofList 0 [2 ^ 255, 2 ^ 256 - 1, 7]) [2 ^ 255, 7] [] := by
  have own : Own (Store.ofList 0 [2 ^ 255, 2 ^ 256 - 1, 7])
      (([2 ^ 255, 2 ^ 256 - 1, 0] : List ℤ).take Arith.sdiv.arity ++ [7]) [] :=
    own_ofList 0 [2 ^ 255, 2 ^ 256 - 1, 7]
  have ends := ((arith_meets_spec_iff .sdiv (by decide) (by decide) (by decide) own).2 id).1
  exact ends

/-- `SHL` shifts one by 255 and leaves zero, `SAR` zero by 256 and leaves minus one. -/
theorem shifts_miss_spec :
    Ends opSHL (Store.ofList 0 [255, 1]) [0] [] ∧ Arith.shl.spec 255 1 0 = 2 ^ 255 ∧
      Ends opSAR (Store.ofList 0 [256, 0]) [2 ^ 256 - 1] [] ∧ Arith.sar.spec 256 0 0 = 0 := by
  have shl_own : Own (Store.ofList (0 : ℤ) [255, 1]) [255, 1] [] := own_ofList 0 [255, 1]
  have sar_own : Own (Store.ofList (0 : ℤ) [256, 0]) [256, 0] [] := own_ofList 0 [256, 0]
  have shl_value : shl 255 1 = 0 := by decide +kernel
  have sar_value : sar 256 0 = 2 ^ 256 - 1 := by decide +kernel
  refine ⟨?_, by decide +kernel, ?_, by decide +kernel⟩
  · rw [← shl_value]
    exact Arith.leaves (z := 0) .shl shl_own
  · rw [← sar_value]
    exact leaves_opSAR sar_own

end Leaves

end JuChain.Vm
