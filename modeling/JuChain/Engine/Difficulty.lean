import JuChain.Engine.Header
import JuChain.Lib.Cells

/-!
# The difficulty rule in place

`calcDifficultyByzantium` works on big integers that it overwrites.  Run on cells, it returns the
value of `difficultyAt` in a cell of its own and leaves every older cell as it was, whichever of its
operands are the same cell (`runs_calcDifficultyByzantium`).
-/

namespace JuChain.Engine

open Cells List

/-! ## The program -/

/-- The references of the package variables. -/
structure Constants where
  expDiffPeriod : Ref
  big1 : Ref
  big2 : Ref
  big9 : Ref
  bigMinus99 : Ref
  big2999999 : Ref
  difficultyBoundDivisor : Ref
  minimumDifficulty : Ref

variable (c : Constants)

/-- The references in the parent header. -/
structure ParentRefs where
  time : Ref
  difficulty : Ref
  number : Ref
  uncleHash : Hash

/-- `z.Op(x, y)`. -/
def assign (f : ℤ → ℤ → ℤ) (z x y : Ref) : Prog ℤ Unit := do
  let a ← read x
  let b ← read y
  write z (f a b)

/-- `if x.Cmp(floor) < 0 { x.Set(floor) }`. -/
def raiseTo (x floor : Ref) : Prog ℤ Unit := do
  let a ← read x
  let b ← read floor
  if a < b then write x b

/-- `x` is subtracted from one, or from two when the parent has uncles. -/
def subtractFrom (parent : ParentRefs) (x : Ref) : Prog ℤ Unit :=
  if parent.uncleHash = emptyUncleHash then assign (· - ·) x c.big1 x
  else assign (· - ·) x c.big2 x

/-- The part of `calcDifficultyByzantium` before the exponential factor: `x` and `y`. -/
def adjust (time : UInt64) (parent : ParentRefs) : Prog ℤ (Ref × Ref) := do
  let bigTime ← alloc (time.toNat : ℤ)
  let t ← read parent.time
  let bigParentTime ← alloc t
  let x ← alloc 0
  let y ← alloc 0
  assign (· - ·) x bigTime bigParentTime
  assign (· / ·) x x c.big9
  subtractFrom c parent x
  raiseTo x c.bigMinus99
  assign (· / ·) y parent.difficulty c.difficultyBoundDivisor
  assign (· * ·) x y x
  assign (· + ·) x parent.difficulty x
  raiseTo x c.minimumDifficulty
  pure (x, y)

/-- The number of the parent lowered by the delay, where it is large enough. -/
def subtractDelay (parent : ParentRefs) (fakeBlockNumber : Ref) : Prog ℤ Unit := do
  let number ← read parent.number
  let delay ← read c.big2999999
  if delay ≤ number then assign (· - ·) fakeBlockNumber parent.number c.big2999999

/-- The number of periods, in a new number. -/
def countPeriods (parent : ParentRefs) : Prog ℤ Ref := do
  let fakeBlockNumber ← alloc 0
  subtractDelay c parent fakeBlockNumber
  assign (· / ·) fakeBlockNumber fakeBlockNumber c.expDiffPeriod
  pure fakeBlockNumber

/-- The exponential term is added. -/
def addBomb (periodCount x y : Ref) : Prog ℤ Unit := do
  let p ← read periodCount
  let one ← read c.big1
  if one < p then do
    assign (· - ·) y periodCount c.big2
    assign (fun b e => b ^ e.toNat) y c.big2 y
    assign (· + ·) x x y

def calcDifficultyByzantium (time : UInt64) (parent : ParentRefs) : Prog ℤ Ref := do
  let locals ← adjust c time parent
  let periodCount ← countPeriods c parent
  addBomb c periodCount locals.1 locals.2
  pure locals.1

/-! ## What it leaves -/

/-- What the references hold before the call. -/
structure Reads (s : Store ℤ) (c : Constants) (refs : ParentRefs) (parent : Header) : Prop where
  expDiffPeriod : c.expDiffPeriod < s.fresh ∧ s.heap c.expDiffPeriod = Engine.expDiffPeriod
  big1 : c.big1 < s.fresh ∧ s.heap c.big1 = 1
  big2 : c.big2 < s.fresh ∧ s.heap c.big2 = 2
  big9 : c.big9 < s.fresh ∧ s.heap c.big9 = 9
  bigMinus99 : c.bigMinus99 < s.fresh ∧ s.heap c.bigMinus99 = -99
  big2999999 : c.big2999999 < s.fresh ∧ s.heap c.big2999999 = 2999999
  difficultyBoundDivisor : c.difficultyBoundDivisor < s.fresh ∧
    s.heap c.difficultyBoundDivisor = Engine.difficultyBoundDivisor
  minimumDifficulty : c.minimumDifficulty < s.fresh ∧
    s.heap c.minimumDifficulty = Engine.minimumDifficulty
  time : refs.time < s.fresh ∧ s.heap refs.time = parent.time
  difficulty : refs.difficulty < s.fresh ∧ s.heap refs.difficulty = parent.difficulty
  number : refs.number < s.fresh ∧ s.heap refs.number = parent.number
  uncleHash : refs.uncleHash = parent.uncleHash

section Runs

variable {s₀ s : Store ℤ} {held : List (Ref × ℤ)} {x y z : Ref} {a b v : ℤ}

theorem run_assign (before : List (Ref × ℤ)) (f : ℤ → ℤ → ℤ)
    (h : Local s₀ s (before ++ (z, v) :: held)) (hx : read x s = some (a, s))
    (hy : read y s = some (b, s)) :
    ∃ s', assign f z x y s = some ((), s') ∧ Local s₀ s' (before ++ (z, f a b) :: held) := by
  obtain ⟨s', written, h'⟩ := Local.write before h (f a b)
  refine ⟨s', ?_, h'⟩
  rw [assign, run_bind hx, run_bind hy]
  exact written

theorem run_raiseTo (before : List (Ref × ℤ)) (h : Local s₀ s (before ++ (x, a) :: held))
    (hy : read y s = some (b, s)) : ∃ s', raiseTo x y s = some ((), s') ∧
      Local s₀ s' (before ++ (x, if a < b then b else a) :: held) := by
  have hx : read x s = some (a, s) := h.read (by simp)
  rw [raiseTo, run_bind hx, run_bind hy]
  split_ifs with below
  · exact Local.write before h b
  · exact ⟨s, rfl, h⟩

variable {c : Constants} {refs : ParentRefs} {parent : Header}

theorem run_adjust (reads : Reads s c refs parent) (time : UInt64) :
    ∃ x y w s' held, adjust c time refs s = some ((x, y), s') ∧
      Local s s' ((y, w) :: (x, adjustedDifficulty time.toNat parent) :: held) := by
  obtain ⟨bigTime, s₁, new₁, h₁⟩ := (Local.start s).alloc (time.toNat : ℤ)
  obtain ⟨bigParentTime, s₂, new₂, h₂⟩ := h₁.alloc parent.time
  obtain ⟨x, s₃, new₃, h₃⟩ := h₂.alloc 0
  obtain ⟨y, s₄, new₄, h₄⟩ := h₃.alloc 0
  have readTime : read bigTime s₄ = some ((time.toNat : ℤ), s₄) := h₄.read (by simp)
  have readParentTime : read bigParentTime s₄ = some (parent.time, s₄) := h₄.read (by simp)
  obtain ⟨s₅, elapsed, h₅⟩ := run_assign [(y, 0)] (· - ·) h₄ readTime readParentTime
  have readX₅ : read x s₅ = some (time.toNat - parent.time, s₅) := h₅.read (by simp)
  obtain ⟨s₆, steps, h₆⟩ := run_assign [(y, 0)] (· / ·) h₅ readX₅ (h₅.readOld reads.big9)
  have readX₆ : read x s₆ = some ((time.toNat - parent.time) / 9, s₆) := h₆.read (by simp)
  -- The first summand depends on whether the parent has uncles.
  obtain ⟨s₇, uncles, h₇⟩ : ∃ s₇, subtractFrom c refs x s₆ = some ((), s₇) ∧
      Local s s₇ ((y, 0) :: (x, if parent.uncleHash = emptyUncleHash
        then 1 - (time.toNat - parent.time) / 9 else 2 - (time.toNat - parent.time) / 9) ::
        [(bigParentTime, parent.time), (bigTime, (time.toNat : ℤ))]) := by
    rw [subtractFrom, reads.uncleHash]
    split_ifs with none
    · exact run_assign [(y, 0)] (· - ·) h₆ (h₆.readOld reads.big1) readX₆
    · exact run_assign [(y, 0)] (· - ·) h₆ (h₆.readOld reads.big2) readX₆
  obtain ⟨s₈, floor, h₈⟩ := run_raiseTo [(y, 0)] h₇ (h₇.readOld reads.bigMinus99)
  obtain ⟨s₉, part, h₉⟩ := run_assign [] (· / ·) h₈ (h₈.readOld reads.difficulty)
    (h₈.readOld reads.difficultyBoundDivisor)
  obtain ⟨s₁₀, product, h₁₀⟩ := run_assign [_] (· * ·) h₉ (h₉.read mem_cons_self)
    (h₉.read (mem_cons_of_mem _ mem_cons_self))
  obtain ⟨s₁₁, sum, h₁₁⟩ := run_assign [_] (· + ·) h₁₀ (h₁₀.readOld reads.difficulty)
    (h₁₀.read (mem_cons_of_mem _ mem_cons_self))
  obtain ⟨s₁₂, minimum, h₁₂⟩ := run_raiseTo [_] h₁₁ (h₁₁.readOld reads.minimumDifficulty)
  refine ⟨x, y, _, s₁₂, _, ?_, h₁₂⟩
  have readParent := (h₁.readOld reads.time)
  rw [adjust, run_bind new₁, run_bind readParent, run_bind new₂, run_bind new₃, run_bind new₄,
    run_bind elapsed, run_bind steps, run_bind uncles, run_bind floor, run_bind part,
    run_bind product, run_bind sum, run_bind minimum]
  rfl

theorem run_countPeriods {s : Store ℤ} {held : List (Ref × ℤ)} (reads : Reads s₀ c refs parent)
    (h : Local s₀ s held) : ∃ r s', countPeriods c refs s = some (r, s') ∧
      Local s₀ s' ((r, (periodCount parent : ℤ)) :: held) := by
  obtain ⟨r, s₁, new, h₁⟩ := h.alloc 0
  have readNumber := h₁.readOld reads.number
  have readDelay := h₁.readOld reads.big2999999
  obtain ⟨s₂, delayed, h₂⟩ : ∃ s₂, subtractDelay c refs r s₁ = some ((), s₂) ∧
      Local s₀ s₂ ((r, if (2999999 : ℤ) ≤ parent.number then parent.number - 2999999 else 0) ::
        held) := by
    rw [subtractDelay, run_bind readNumber, run_bind readDelay]
    split_ifs with late
    · exact run_assign [] (· - ·) h₁ readNumber readDelay
    · exact ⟨s₁, rfl, h₁⟩
  obtain ⟨s₃, periods, h₃⟩ := run_assign [] (· / ·) h₂ (h₂.read mem_cons_self)
    (h₂.readOld reads.expDiffPeriod)
  have value : (if (2999999 : ℤ) ≤ parent.number then (parent.number : ℤ) - 2999999 else 0) /
      (expDiffPeriod : ℤ) = (periodCount parent : ℤ) := by
    unfold periodCount
    rw [Int.natCast_ediv]
    congr 1
    split_ifs with far near near <;> omega
  refine ⟨r, s₃, ?_, value ▸ h₃⟩
  rw [countPeriods, run_bind new, run_bind delayed, run_bind periods]
  rfl

theorem runs_calcDifficultyByzantium (reads : Reads s c refs parent) (time : UInt64) :
    ∃ r s', calcDifficultyByzantium c time refs s = some (r, s') ∧
      s'.heap r = calcDifficulty time parent ∧ s.fresh ≤ r ∧ ∀ q < s.fresh, s'.heap q = s.heap q := by
  obtain ⟨x, y, w, s₁, held, adjusted, h₁⟩ := run_adjust reads time
  obtain ⟨count, s₂, counted, h₂⟩ := run_countPeriods reads h₁
  have readCount := h₂.read mem_cons_self
  have readOne := h₂.readOld reads.big1
  obtain ⟨s₃, v, bomb, h₃⟩ : ∃ s₃ v, addBomb c count x y s₂ = some ((), s₃) ∧
      Local s s₃ ((count, (periodCount parent : ℤ)) :: (y, v) ::
        (x, calcDifficulty time parent) :: held) := by
    rw [addBomb, run_bind readCount, run_bind readOne, calcDifficulty, difficultyAt]
    by_cases late : 1 < periodCount parent
    · rw [if_pos (by exact_mod_cast late), if_pos late]
      obtain ⟨t₁, sub, k₁⟩ := run_assign [_] (· - ·) h₂ readCount (h₂.readOld reads.big2)
      obtain ⟨t₂, exp, k₂⟩ := run_assign [_] (fun b e => b ^ e.toNat) k₁ (k₁.readOld reads.big2)
        (k₁.read (mem_cons_of_mem _ mem_cons_self))
      obtain ⟨t₃, add, k₃⟩ := run_assign [_, _] (· + ·) k₂
        (k₂.read (mem_cons_of_mem _ (mem_cons_of_mem _ mem_cons_self)))
        (k₂.read (mem_cons_of_mem _ mem_cons_self))
      have exponent : ((periodCount parent : ℤ) - 2).toNat = periodCount parent - 2 := by omega
      rw [exponent] at k₃
      refine ⟨t₃, _, ?_, k₃⟩
      rw [run_bind sub, run_bind exp]
      exact add
    · rw [if_neg (by exact_mod_cast late), if_neg late]
      exact ⟨s₂, w, rfl, h₂⟩
  have result := h₃.kept (x, calcDifficulty time parent) (by simp)
  refine ⟨x, s₃, ?_, result, (h₃.new (x, calcDifficulty time parent) (by simp)).1, h₃.old⟩
  rw [calcDifficultyByzantium, run_bind adjusted, run_bind counted, run_bind bomb]
  rfl

end Runs

section Bounds

variable {parent : Header} {time time' : ℤ}

/-- What the parent's difficulty is moved by, in 2048ths of it. -/
def adjustment (time : ℤ) (parent : Header) : ℤ :=
  max ((if parent.uncleHash = emptyUncleHash then 1 else 2) - (time - parent.time) / 9) (-99)

theorem adjustedDifficulty_eq (time : ℤ) (parent : Header) : adjustedDifficulty time parent =
      max (parent.difficulty + parent.difficulty / difficultyBoundDivisor * adjustment time parent)
        minimumDifficulty := by
  have raised (a b : ℤ) : (if a < b then b else a) = max a b := by
    split_ifs <;> omega
  have summand : (if parent.uncleHash = emptyUncleHash then 1 - (time - parent.time) / 9
      else 2 - (time - parent.time) / 9) =
      (if parent.uncleHash = emptyUncleHash then 1 else 2) - (time - parent.time) / 9 := by
    split_ifs <;> rfl
  unfold adjustedDifficulty adjustment
  simp only [raised, summand]

theorem adjustment_le (after : parent.time ≤ time) : adjustment time parent ≤ 2 := by
  unfold adjustment
  split_ifs <;> omega

theorem neg_le_adjustment (time : ℤ) (parent : Header) : -99 ≤ adjustment time parent :=
  le_max_right _ _

theorem adjustment_antitone (later : time ≤ time') :
    adjustment time' parent ≤ adjustment time parent := by
  unfold adjustment
  omega

section

variable (enough : minimumDifficulty ≤ parent.difficulty)
include enough

theorem share_nonneg : 0 ≤ parent.difficulty / difficultyBoundDivisor := by
  have : minimumDifficulty = 131072 := rfl
  unfold difficultyBoundDivisor
  omega

theorem adjustedDifficulty_le (after : parent.time ≤ time) : adjustedDifficulty time parent ≤
      parent.difficulty + 2 * (parent.difficulty / difficultyBoundDivisor) := by
  have share := share_nonneg enough
  have moved := mul_le_mul_of_nonneg_left (adjustment_le after) share
  rw [adjustedDifficulty_eq]
  exact max_le (by linarith) (by linarith)

theorem le_adjustedDifficulty (time : ℤ) :
    parent.difficulty - 99 * (parent.difficulty / difficultyBoundDivisor) ≤
      adjustedDifficulty time parent := by
  have moved := mul_le_mul_of_nonneg_left (neg_le_adjustment time parent) (share_nonneg enough)
  rw [adjustedDifficulty_eq]
  exact le_max_of_le_left (by linarith)

theorem adjustedDifficulty_antitone (later : time ≤ time') :
    adjustedDifficulty time' parent ≤ adjustedDifficulty time parent := by
  have moved := mul_le_mul_of_nonneg_left (@adjustment_antitone parent time time' later)
    (share_nonneg enough)
  rw [adjustedDifficulty_eq, adjustedDifficulty_eq]
  exact max_le_max (by linarith) le_rfl

end

/-! ## The formula -/

/-- The exponential term. -/
def bomb (parent : Header) : ℤ :=
  ⌊(2 : ℚ) ^ (Int.fdiv (max 0 ((parent.number + 1 : ℤ) - 3000000)) 100000 - 2)⌋

/-- EIP 100 with the delay of EIP 649 in the exponential term; all divisions round down. -/
def formula (time : ℤ) (parent : Header) : ℤ :=
  max (parent.difficulty + Int.fdiv parent.difficulty 2048 *
      max ((if parent.uncleHash = emptyUncleHash then 1 else 2) - Int.fdiv (time - parent.time) 9)
        (-99))
    (min parent.difficulty minimumDifficulty) + bomb parent

theorem bomb_eq (parent : Header) :
    bomb parent = if 1 < periodCount parent then 2 ^ (periodCount parent - 2) else 0 := by
  have periods : Int.fdiv (max 0 ((parent.number + 1 : ℤ) - 3000000)) 100000 =
      (periodCount parent : ℤ) := by
    rw [Int.fdiv_eq_ediv_of_nonneg _ (by norm_num)]
    unfold periodCount expDiffPeriod
    split_ifs <;> omega
  rw [bomb, periods]
  split_ifs with late
  · obtain ⟨k, hk⟩ := Nat.exists_eq_add_of_le late
    rw [hk]
    have exponent : ((1 + 1 + k : ℕ) : ℤ) - 2 = (k : ℤ) := by push_cast; ring
    rw [exponent, zpow_natCast]
    have : 1 + 1 + k - 2 = k := by omega
    rw [this]
    exact_mod_cast Int.floor_natCast (R := ℚ) (2 ^ k)
  · have small : periodCount parent = 0 ∨ periodCount parent = 1 := by omega
    rcases small with h | h <;> rw [h] <;> norm_num

theorem difficultyAt_eq (time : ℤ) (parent : Header) :
    difficultyAt time parent = adjustedDifficulty time parent + bomb parent := by
  rw [bomb_eq, difficultyAt]
  split_ifs
  · rfl
  · rw [add_zero]

theorem difficultyAt_eq_formula (enough : minimumDifficulty ≤ parent.difficulty) (time : ℤ) :
    difficultyAt time parent = formula time parent := by
  rw [difficultyAt_eq, adjustedDifficulty_eq, formula, adjustment, min_eq_right enough,
    Int.fdiv_eq_ediv_of_nonneg _ (by norm_num), Int.fdiv_eq_ediv_of_nonneg _ (by norm_num)]
  rfl

end Bounds

/-- The difficulty is that of the formula, where it lies, how it depends on the time, and that
computing it changes nothing older. -/
theorem difficulty_bounded (s : Store ℤ) (c : Constants) (refs : ParentRefs) (parent : Header)
    (reads : Reads s c refs parent) (enough : minimumDifficulty ≤ parent.difficulty) (time : UInt64)
    (after : parent.time ≤ time.toNat) :
    ∃ r s', calcDifficultyByzantium c time refs s = some (r, s') ∧ minimumDifficulty ≤ s'.heap r ∧
      (∀ time' r' s'', time ≤ time' → calcDifficultyByzantium c time' refs s = some (r', s'') →
        s''.heap r' ≤ s'.heap r) ∧ s'.heap r - bomb parent ≤
        parent.difficulty + 2 * (parent.difficulty / difficultyBoundDivisor) ∧
      parent.difficulty - 99 * (parent.difficulty / difficultyBoundDivisor) ≤
        s'.heap r - bomb parent ∧ s'.heap r = formula time.toNat parent ∧
      s.fresh ≤ r ∧ ∀ q < s.fresh, s'.heap q = s.heap q := by
  obtain ⟨r, s', ran, value, fresh, kept⟩ := runs_calcDifficultyByzantium reads time
  have split : s'.heap r = adjustedDifficulty time.toNat parent + bomb parent := by
    rw [value, calcDifficulty, difficultyAt_eq]
  refine ⟨r, s', ran, ?_, ?_, ?_, ?_, ?_, fresh, kept⟩
  · rw [value]
    exact minimumDifficulty_le _ _
  · intro time' r' s'' later ran'
    obtain ⟨q, t, ran'', value', -, -⟩ := runs_calcDifficultyByzantium reads time'
    rw [ran''] at ran'
    obtain ⟨rfl, rfl⟩ : q = r' ∧ t = s'' := by simpa using ran'
    have order : (time.toNat : ℤ) ≤ time'.toNat := by exact_mod_cast UInt64.le_iff_toNat_le.1 later
    rw [value', split, calcDifficulty, difficultyAt_eq]
    exact Int.add_le_add_right (adjustedDifficulty_antitone enough order) _
  · rw [split, add_sub_cancel_right]
    exact adjustedDifficulty_le enough after
  · rw [split, add_sub_cancel_right]
    exact le_adjustedDifficulty enough _
  · rw [value, calcDifficulty, difficultyAt_eq_formula enough]

/-- A store with the constants and a parent. -/
def sampleStore : Store ℤ :=
  .ofList 0 [100000, 1, 2, 9, -99, 2999999, 2048, 131072, 0, 131072, 0]

theorem reads_sampleStore :
    Reads sampleStore ⟨0, 1, 2, 3, 4, 5, 6, 7⟩ ⟨8, 9, 10, emptyUncleHash⟩ sampleGenesis := by
  constructor <;> decide

theorem difficulty_bounded_sample :
    ∃ r s', calcDifficultyByzantium ⟨0, 1, 2, 3, 4, 5, 6, 7⟩ 5 ⟨8, 9, 10, emptyUncleHash⟩ sampleStore =
        some (r, s') ∧ s'.heap r = formula 5 sampleGenesis := by
  obtain ⟨r, s', ran, -, -, -, -, value, -⟩ := difficulty_bounded sampleStore _ _ sampleGenesis
    reads_sampleStore (by decide) 5 (by decide)
  exact ⟨r, s', ran, value⟩

end JuChain.Engine
