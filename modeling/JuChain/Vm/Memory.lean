import JuChain.Lib.Runs
import JuChain.Vm.Basic

/-!
# Memory and its price

`vm/solc/memory.go`, and `memoryGasCost` of `gas_table.go`.  A frame that has grown its memory to
`w` words should have paid `MemoryGas * w + w ^ 2 / QuadCoeffDiv` in all.  The bound on the size
lets up to `2 ^ 35 - 1` words through, but the fees are exact only below `2 ^ 32` words
(`memory_gas_exact_iff`).
-/

namespace JuChain.Vm

open Slices UInt64

variable {size fee : UInt64} {w : ℕ}

structure Memory where
  store : Bytes := []
  lastGasCost : UInt64 := 0

variable {m mem : Memory}

namespace Memory

/-- `Memory.Len`. -/
def len (m : Memory) : ℕ := m.store.length

/-- `Memory.Resize`. -/
def resize (m : Memory) (size : UInt64) : Memory :=
  if m.len < size.toNat then
    { m with store := m.store ++ List.replicate (size.toNat - m.len) 0 }
  else m

end Memory

/-- `memoryGasCost`: the fee, and the memory with the new total noted. -/
def memoryGasCost (mem : Memory) (newMemSize : UInt64) : Result (UInt64 × Memory) :=
  if newMemSize = 0 then .ok (0, mem)
  else if 0xffffffffe0 < newMemSize then .error (.err .gasUintOverflow)
  else
    let newMemSizeWords := toWordSize newMemSize
    if ofNat mem.len < newMemSizeWords * 32 then
      let square := newMemSizeWords * newMemSizeWords
      let linCoef := newMemSizeWords * memoryGas
      let quadCoef := square / quadCoeffDiv
      let newTotalFee := linCoef + quadCoef
      .ok (newTotalFee - mem.lastGasCost, { mem with lastGasCost := newTotalFee })
    else .ok (0, mem)

/-- The memory, and the gas paid for it. -/
structure Meter where
  mem : Memory := {}
  paid : ℕ := 0

/-- `Interpreter.Run` on an operation that needs `memSize` bytes: round up to words, ask for the
fee, resize. -/
def Meter.charge (m : Meter) (memSize : UInt64) : Option Meter := do
  let memorySize ← (checked (safeMul (toWordSize memSize) 32)).toOption
  let (fee, mem) ← (memoryGasCost m.mem memorySize).toOption
  some ⟨if 0 < memorySize then mem.resize memorySize else mem, m.paid + fee.toNat⟩

/-- The length in words. -/
def Memory.words (m : Memory) : ℕ := m.len / 32

/-- The fee for so many words. -/
def total (w : ℕ) : ℕ := memoryGas.toNat * w + w ^ 2 / quadCoeffDiv.toNat

theorem total_eq (w : ℕ) : total w = 3 * w + w ^ 2 / 512 := rfl

theorem total_mono : Monotone total := by
  intro v w h
  rw [total_eq, total_eq]
  have := Nat.div_le_div_right (c := 512) (Nat.pow_le_pow_left h 2)
  omega

/-- The gas paid is the fee. -/
def Meter.Exact (m : Meter) : Prop := m.paid = total m.mem.words

/-- No 64-bit operation of `memoryGasCost` wraps; in particular larger memory does not cost less. -/
structure Meter.Unwrapped (m : Meter) (memSize : UInt64) : Prop where
  square : (toWordSize memSize).toNat * (toWordSize memSize).toNat < 2 ^ 64
  linear : (toWordSize memSize).toNat * memoryGas.toNat < 2 ^ 64
  sum : total (toWordSize memSize).toNat < 2 ^ 64
  difference : m.mem.words < (toWordSize memSize).toNat →
    m.mem.lastGasCost.toNat ≤ total (toWordSize memSize).toNat

/-! ## What one operation does -/

/-- The noted total is that of the 64-bit arithmetic.  The fees add up to it, but for differences
that wrapped. -/
structure Meter.Ok (m : Meter) : Prop where
  whole : m.mem.len = 32 * m.mem.words
  small : m.mem.words < 2 ^ 35
  noted : m.mem.lastGasCost.toNat = 3 * m.mem.words + m.mem.words ^ 2 % 2 ^ 64 / 512
  paid : ∃ j, m.paid = m.mem.lastGasCost.toNat + j * 2 ^ 64
  unwrapped : m.mem.words < 2 ^ 32 → m.paid = m.mem.lastGasCost.toNat

theorem ok_start : Meter.Ok {} := ⟨rfl, by decide, by decide, ⟨0, rfl⟩, fun _ => rfl⟩

theorem toNat_newTotalFee {words : UInt64} (h : words.toNat < 2 ^ 35) :
    (words * memoryGas + words * words / quadCoeffDiv).toNat =
      3 * words.toNat + words.toNat ^ 2 % 2 ^ 64 / 512 := by
  have lin : (words * memoryGas).toNat = 3 * words.toNat := by
    show words.toNat * 3 % 2 ^ 64 = _
    omega
  have quad : (words * words / quadCoeffDiv).toNat = words.toNat ^ 2 % 2 ^ 64 / 512 := by
    rw [UInt64.toNat_div, UInt64.toNat_mul, ← sq]
    rfl
  rw [UInt64.toNat_add, lin, quad]
  omega

theorem resize_of_le (h : size.toNat ≤ m.len) : m.resize size = m :=
  if_neg (Nat.not_lt.2 h)

theorem len_resize (h : m.len ≤ size.toNat) : (m.resize size).len = size.toNat := by
  unfold Memory.resize
  split_ifs with grows
  · show (m.store ++ _).length = _
    rw [List.length_append, List.length_replicate]
    show m.len + _ = _
    omega
  · exact Nat.le_antisymm h (Nat.not_lt.1 grows)

theorem words_resize (h : m.len ≤ size.toNat) (hw : size.toNat = 32 * w) :
    (m.resize size).words = w := by
  rw [Memory.words, len_resize h, hw]
  omega

theorem lastGasCost_resize (m : Memory) (size : UInt64) :
    (m.resize size).lastGasCost = m.lastGasCost := by
  unfold Memory.resize
  split_ifs <;> rfl

theorem memoryGasCost_cases {mem' : Memory} (small : mem.len < 2 ^ 64)
    (h : memoryGasCost mem size = .ok (fee, mem')) : (toWordSize size).toNat < 2 ^ 35 ∧
      (32 * (toWordSize size).toNat ≤ mem.len ∧ fee = 0 ∧ mem' = mem ∨
        mem.len < 32 * (toWordSize size).toNat ∧ fee = mem'.lastGasCost - mem.lastGasCost ∧
          mem'.store = mem.store ∧ mem'.lastGasCost.toNat = 3 * (toWordSize size).toNat +
            (toWordSize size).toNat ^ 2 % 2 ^ 64 / 512) := by
  have words := toNat_toWordSize size
  have length : (ofNat mem.len).toNat = mem.len := by
    rw [toNat_ofNat']
    omega
  unfold memoryGasCost at h
  split_ifs at h with zero large
  · cases h
    have none : size.toNat = 0 := by rw [zero]; rfl
    exact ⟨by omega, .inl ⟨by omega, rfl, rfl⟩⟩
  rw [lt_iff_toNat_lt] at large
  have bound : (0xffffffffe0 : UInt64).toNat = 0xffffffffe0 := rfl
  have w35 : (toWordSize size).toNat < 2 ^ 35 := by omega
  have product : (toWordSize size * 32).toNat = 32 * (toWordSize size).toNat := by
    rw [UInt64.toNat_mul]
    show _ * 32 % 2 ^ 64 = _
    omega
  dsimp only at h
  refine ⟨w35, ?_⟩
  split_ifs at h with grows <;> rw [lt_iff_toNat_lt, length, product] at grows <;> cases h
  · exact .inr ⟨grows, rfl, rfl, toNat_newTotalFee w35⟩
  · exact .inl ⟨by omega, rfl, rfl⟩

variable {m m' : Meter} {memSize : UInt64}

theorem charge_eq {memorySize : UInt64}
    (size : checked (safeMul (toWordSize memSize) 32) = .ok memorySize)
    (charged : memoryGasCost m.mem memorySize = .ok (fee, mem)) (pos : 0 < memorySize) :
    m.charge memSize = some ⟨mem.resize memorySize, m.paid + fee.toNat⟩ := by
  rw [Meter.charge, size]
  simp only [Except.toOption, charged, Option.bind_eq_bind, Option.bind_some, if_pos pos]

theorem charge_cases (ok : m.Ok) (h : m.charge memSize = some m') :
    (toWordSize memSize).toNat < 2 ^ 35 ∧
      ((toWordSize memSize).toNat ≤ m.mem.words ∧ m' = m ∨
        m.mem.words < (toWordSize memSize).toNat ∧ m'.mem.len = 32 * (toWordSize memSize).toNat ∧
          m'.mem.lastGasCost.toNat = 3 * (toWordSize memSize).toNat +
            (toWordSize memSize).toNat ^ 2 % 2 ^ 64 / 512 ∧
          m'.paid = m.paid + (m'.mem.lastGasCost - m.mem.lastGasCost).toNat) := by
  have whole := ok.whole
  have small := ok.small
  unfold Meter.charge at h
  cases hsize : checked (safeMul (toWordSize memSize) 32) with
  | error e => simp [hsize, Except.toOption] at h
  | ok memorySize =>
    cases hfee : memoryGasCost m.mem memorySize with
    | error e => simp [hsize, hfee, Except.toOption] at h
    | ok charged =>
      obtain ⟨fee, mem⟩ := charged
      simp only [hsize, hfee, Except.toOption, Option.bind_eq_bind, Option.bind_some,
        Option.some.injEq] at h
      have size : memorySize.toNat = (toWordSize memSize).toNat * 32 := checked_safeMul_eq_ok.1 hsize
      have words : (toWordSize memorySize).toNat = (toWordSize memSize).toNat := by
        rw [toNat_toWordSize, size]
        omega
      have cases := memoryGasCost_cases (by omega) hfee
      rw [words] at cases
      obtain ⟨w35, ⟨covered, rfl, rfl⟩ | ⟨grows, rfl, store, total⟩⟩ := cases
      · refine ⟨w35, .inl ⟨by omega, ?_⟩⟩
        rw [← h, resize_of_le (by omega), ite_self]
        rfl
      · have pos : 0 < memorySize := by
          rw [lt_iff_toNat_lt]
          show 0 < _
          omega
        have fits : mem.len ≤ memorySize.toNat := by
          rw [Memory.len, store]
          show m.mem.len ≤ _
          omega
        rw [if_pos pos] at h
        subst h
        rw [len_resize fits, lastGasCost_resize]
        exact ⟨w35, .inr ⟨by omega, by omega, total, rfl⟩⟩

theorem sq_lt_of_lt (h : w < 2 ^ 32) : w ^ 2 < 2 ^ 64 := by
  have := Nat.pow_lt_pow_left h (n := 2) (by norm_num)
  exact this

theorem noted_eq_total (h : w < 2 ^ 32) : 3 * w + w ^ 2 % 2 ^ 64 / 512 = total w := by
  rw [total_eq, Nat.mod_eq_of_lt (sq_lt_of_lt h)]

theorem Meter.Ok.charge (ok : m.Ok) (h : m.charge memSize = some m') : m'.Ok := by
  obtain ⟨w35, ⟨-, rfl⟩ | ⟨grows, len, noted, paid⟩⟩ := charge_cases ok h
  · exact ok
  have words : m'.mem.words = (toWordSize memSize).toNat := by
    rw [Memory.words, len]
    omega
  obtain ⟨j, hj⟩ := ok.paid
  have old := m.mem.lastGasCost.toNat_lt
  refine ⟨by rw [len, words], by rw [words]; exact w35, by rw [words]; exact noted, ?_, fun low => ?_⟩
  · rcases Nat.lt_or_ge m'.mem.lastGasCost.toNat m.mem.lastGasCost.toNat with less | more
    · refine ⟨j + 1, ?_⟩
      rw [paid, hj, UInt64.toNat_sub]
      omega
    · refine ⟨j, ?_⟩
      rw [paid, hj, UInt64.toNat_sub_of_le _ _ (UInt64.le_iff_toNat_le.2 more)]
      omega
  · rw [words] at low
    -- Both totals are exact, so the larger memory has the larger one.
    have le : m.mem.lastGasCost.toNat ≤ m'.mem.lastGasCost.toNat := by
      rw [ok.noted, noted, noted_eq_total (grows.trans low), noted_eq_total low]
      exact total_mono grows.le
    rw [paid, ok.unwrapped (grows.trans low),
      UInt64.toNat_sub_of_le _ _ (UInt64.le_iff_toNat_le.2 le)]
    omega

/-! ## Exact fees -/

/-- From `2 ^ 32` words on the square wraps, by too little for differences that wrap to make up for
it. -/
theorem wrapped_ne_total (large : 2 ^ 32 ≤ w) (w35 : w < 2 ^ 35) (j : ℕ) :
    3 * w + w ^ 2 % 2 ^ 64 / 512 + j * 2 ^ 64 ≠ total w := by
  have low : 2 ^ 64 ≤ w ^ 2 := by
    have := Nat.pow_le_pow_left large 2
    exact this
  have high : w ^ 2 < 2 ^ 70 := by
    have := Nat.pow_lt_pow_left w35 (n := 2) (by norm_num)
    exact this
  rw [total_eq]
  omega

theorem exact_iff (ok : m.Ok) : m.Exact ↔ m.mem.words < 2 ^ 32 := by
  constructor
  · intro exact
    by_contra large
    obtain ⟨j, hj⟩ := ok.paid
    refine wrapped_ne_total (Nat.not_lt.1 large) ok.small j ?_
    rw [← ok.noted, ← hj, exact]
  · intro low
    rw [Meter.Exact, ok.unwrapped low, ok.noted, noted_eq_total low]

theorem words_charge (ok : m.Ok) (h : m.charge memSize = some m') :
    m'.mem.words = max m.mem.words (toWordSize memSize).toNat := by
  obtain ⟨-, ⟨le, rfl⟩ | ⟨lt, len, -⟩⟩ := charge_cases ok h
  · exact (max_eq_left le).symm
  · rw [max_eq_right lt.le, Memory.words, len]
    omega

/-- The last size whose fee is exact. -/
def safeMemSize : UInt64 := 0x1fffffffe0

theorem le_safeMemSize_iff : memSize ≤ safeMemSize ↔ (toWordSize memSize).toNat < 2 ^ 32 := by
  rw [le_iff_toNat_le, toNat_toWordSize]
  show _ ≤ 0x1fffffffe0 ↔ _
  omega

theorem unwrapped_of_le (ok : m.Ok) (h : memSize ≤ safeMemSize) : m.Unwrapped memSize := by
  have low := le_safeMemSize_iff.1 h
  have square := sq_lt_of_lt low
  refine ⟨by rwa [← sq], ?_, ?_, fun grows => ?_⟩
  · show _ * 3 < _
    omega
  · rw [total_eq]
    omega
  · rw [ok.noted, noted_eq_total (grows.trans low)]
    exact total_mono grows.le

/-- The fees add up to the price of the memory after each accepted size, and nothing wraps, exactly
when no accepted size is above `safeMemSize`. -/
theorem memory_gas_exact_iff (sizes : List UInt64) : Runs.Always Meter.charge Meter.Exact {} sizes ∧
        Runs.Throughout Meter.charge (fun m size => (m.charge size).isSome → m.Unwrapped size) {}
          sizes ↔
      Runs.Throughout Meter.charge (fun m size => (m.charge size).isSome → size ≤ safeMemSize) {}
        sizes := by
  have keeps (m : Meter) (size : UInt64) (m' : Meter) (ok : m.Ok) (h : m.charge size = some m') :
      m'.Ok := ok.charge h
  have always : Runs.Always Meter.charge Meter.Exact {} sizes ↔
      Runs.Throughout Meter.charge (fun m size => (m.charge size).isSome → size ≤ safeMemSize) {}
        sizes := by
    refine Runs.always_iff_throughout keeps ?_ ?_ ok_start (s := {}) (P := Meter.Exact) rfl sizes
    · intro m size m' ok exact h
      have low := (exact_iff ok).1 exact
      rw [exact_iff (ok.charge h), words_charge ok h, max_lt_iff, le_safeMemSize_iff, h]
      exact ⟨fun both _ => both.2, fun size => ⟨low, size rfl⟩⟩
    · intro m size _ h
      simp [h]
  refine ⟨fun h => always.1 h.1, fun h => ⟨always.2 h, ?_⟩⟩
  exact h.imp keeps (fun m size ok le accepted => unwrapped_of_le ok (le accepted)) ok_start

/-- A memory of `2 ^ 32` words is sold for less than one of a word less. -/
theorem memory_gas_wraps : ∃ m, Meter.charge {} 0x2000000000 = some m ∧ m.mem.words = 2 ^ 32 ∧
    m.paid = 12884901888 ∧ total (2 ^ 32) = 36028809903865856 ∧
    total (2 ^ 32 - 1) = 36028809887088637 := by
  have size : checked (safeMul (toWordSize 0x2000000000) 32) = .ok 0x2000000000 := by decide
  have fee : memoryGasCost {} 0x2000000000 = .ok (12884901888, ⟨[], 12884901888⟩) := by rfl
  refine ⟨_, charge_eq (m := {}) size fee (by decide), words_resize (Nat.zero_le _) (by decide), ?_, ?_⟩
  · dsimp only
    rfl
  · norm_num [total_eq]

end JuChain.Vm
