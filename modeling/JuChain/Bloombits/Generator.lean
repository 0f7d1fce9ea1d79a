import JuChain.Types.Header

/-!
# Rotating blooms

`core/bloombits/generator.go`.  The generator makes the bit vectors of a section from the blooms of
its blocks: bits of a bloom count from its last byte, those of a vector from its first.  `Bitset`
compares the index of a bloom bit with the number of blocks, so that only sections of 2048 blocks
are right (`rotates_iff`).
-/

namespace JuChain.Bloombits

open List BigEndian JuChain.Types

/-- A bit vector of a section of `size` blocks. -/
abbrev Bits (size : ℕ) := Fin (size / 8) → UInt8

/-- `next&(1<<bit) != 0` -/
def bitSet (next : UInt8) (bit : ℕ) : Bool := next &&& 1 <<< UInt8.ofNat bit ≠ 0

section Bits

variable {size : ℕ} {v : Bits size} {i : ℕ}

/-- The bit of a block in a vector, as `Start` looks at it. -/
def Bits.at (v : Bits size) (i : ℕ) : Bool :=
  if h : i / 8 < size / 8 then bitSet (v ⟨i / 8, h⟩) (7 - i % 8) else false

theorem bitSet_eq (b : UInt8) (i : ℕ) : bitSet b (7 - i % 8) = b.toNat.testBit (7 - i % 8) := by
  have all : ∀ (b : Fin 256) (j : Fin 8), bitSet (UInt8.ofNat b) j = (b : ℕ).testBit j := by
    decide +kernel
  have here := all ⟨b.toNat, b.toNat_lt⟩ ⟨7 - i % 8, by omega⟩
  rwa [UInt8.ofNat_toNat] at here

theorem at_zero (zero : ∀ j, v j = 0) : v.at i = false := by
  unfold Bits.at
  split_ifs
  · rw [bitSet_eq, zero]
    exact Nat.zero_testBit _
  · rfl

end Bits

/-! ## The generator -/

/-- The errors of the generator. -/
inductive GeneratorError where
  | sectionCount
  | sectionOutOfBounds
  | unexpectedIndex
  | notGenerated
  deriving DecidableEq

/-- `Generator`: one vector for each bit of a bloom. -/
structure Generator (sections : ℕ) where
  blooms : Fin 2048 → Bits sections
  nextBit : ℕ

def newGenerator (sections : ℕ) : Except GeneratorError (Generator sections) :=
  if sections % 8 ≠ 0 then .error .sectionCount else .ok ⟨fun _ _ => 0, 0⟩

namespace Generator

variable {sections : ℕ}

/-- `v[nextBit/8] |= byte(1) << byte(7-nextBit%8)` -/
def setBit (v : Bits sections) (nextBit : ℕ) : Bits sections := fun j =>
  if j.val = nextBit / 8 then v j ||| 1 <<< UInt8.ofNat (7 - nextBit % 8) else v j

/-- The generator and the error, if any; `none` is a write out of range. -/
def addBloom (g : Generator sections) (index : ℕ) (bloom : Bloom) :
    Option (Generator sections × Option GeneratorError) :=
  if sections ≤ g.nextBit then some (g, some .sectionOutOfBounds)
  else if g.nextBit ≠ index then some (g, some .unexpectedIndex)
  else if sections / 8 ≤ g.nextBit / 8 then none
  else some
    ({ blooms := fun i =>
        if bitSet ((bloomBytes bloom).getD (255 - i / 8) 0) (i % 8) then setBit (g.blooms i)
          g.nextBit else g.blooms i
       nextBit := g.nextBit + 1 }, none)

/-- `Generator.Bitset`, which compares the index with the section size. -/
def bitset (g : Generator sections) (idx : ℕ) : Except (Fault GeneratorError) (Bits sections) :=
  if g.nextBit ≠ sections then .error (.err .notGenerated)
  else if sections ≤ idx then .error (.err .sectionOutOfBounds)
  else if h : idx < 2048 then .ok (g.blooms ⟨idx, h⟩) else .error .panic

/-- Add blooms in order; `none` if one is not accepted. -/
def addBlooms (g : Generator sections) : List Bloom → Option (Generator sections)
  | [] => some g
  | bloom :: rest => (g.addBloom g.nextBit bloom).bind fun r =>
    if r.2 = none then r.1.addBlooms rest else none

theorem bitSet_byte (bloom : Bloom) (i : Fin 2048) :
    bitSet ((bloomBytes bloom).getD (255 - i / 8) 0) (i % 8) = bloom.getLsbD i := by
  rw [bloomBytes, getD_eq_getElem?_getD, getElem?_fixed (show (i : ℕ) / 8 < 256 by omega),
    Option.getD_some]
  have here := bitSet_eq (UInt8.ofNat (bloom.toNat / 256 ^ (i / 8 : ℕ) % 256)) (7 - i % 8)
  rw [show 7 - (7 - (i : ℕ) % 8) % 8 = i % 8 by omega] at here
  rw [here, testBit_digit _ _ (by omega), Nat.mod_add_div]
  rfl

theorem at_setBit (v : Bits sections) {n k : ℕ} (h : k / 8 < sections / 8) :
    (setBit v n).at k = (v.at k || decide (k = n)) := by
  have mask : ∀ a b : Fin 8, ((1 : UInt8) <<< UInt8.ofNat (7 - b)).toNat.testBit (7 - a) =
    decide (a = b) := by decide
  have here := mask ⟨k % 8, by omega⟩ ⟨n % 8, by omega⟩
  simp only [Bits.at, setBit, h, dif_pos, bitSet_eq]
  split_ifs with same
  · rw [UInt8.toNat_or, Nat.testBit_or, here]
    simp only [Fin.mk.injEq, show k % 8 = n % 8 ↔ k = n by omega]
  · simp [show k ≠ n by omega]

/-! ## All blooms of a section -/

/-- The generator holds the blooms added so far. -/
structure Holds (g : Generator sections) (blooms : List Bloom) : Prop where
  nextBit : g.nextBit = blooms.length
  bits : ∀ i k, k < sections → (g.blooms i).at k = (blooms.getD k 0).getLsbD i

variable {g : Generator sections} {blooms : List Bloom}

theorem getD_concat (blooms : List Bloom) (bloom : Bloom) (k : ℕ) :
    (blooms ++ [bloom]).getD k 0 = if k = blooms.length then bloom else blooms.getD k 0 := by
  grind

theorem Holds.addBloom (h : g.Holds blooms) (aligned : 8 ∣ sections)
    (room : blooms.length < sections) (bloom : Bloom) :
    ∃ g', g.addBloom g.nextBit bloom = some (g', none) ∧ g'.Holds (blooms ++ [bloom]) := by
  have next := h.nextBit
  simp only [Generator.addBloom, bitSet_byte]
  rw [if_neg (by omega), if_neg (by simp), if_neg (by omega)]
  refine ⟨_, rfl, by simp [next], fun i k hk => ?_⟩
  have set := at_setBit (g.blooms i) (n := g.nextBit) (show k / 8 < sections / 8 by omega)
  rw [h.bits i k hk] at set
  rw [getD_concat]
  dsimp only
  by_cases last : k = blooms.length
  · -- the place of the new bloom was empty
    have empty : blooms.getD k 0 = 0 := getD_eq_default _ _ last.ge
    split_ifs with bit
    · rw [set, bit, next, decide_eq_true last, Bool.or_true]
    · rw [h.bits i k hk, empty, Bool.eq_false_iff.2 bit]
      exact BitVec.getLsbD_zero
  · rw [if_neg last]
    split_ifs
    · rw [set, next, decide_eq_false last, Bool.or_false]
    · exact h.bits i k hk

theorem Holds.addBlooms (h : g.Holds blooms) (aligned : 8 ∣ sections) {rest : List Bloom}
    (room : blooms.length + rest.length ≤ sections) :
    ∃ g', g.addBlooms rest = some g' ∧ g'.Holds (blooms ++ rest) := by
  induction rest generalizing g blooms with
  | nil => exact ⟨g, rfl, by simpa using h⟩
  | cons bloom rest ih =>
    rw [length_cons] at room
    obtain ⟨g₁, added, h₁⟩ := h.addBloom aligned (by omega) bloom
    obtain ⟨g₂, rest₂, h₂⟩ := ih h₁ (by simp; omega)
    exact ⟨g₂, by simpa [Generator.addBlooms, added] using rest₂, by simpa using h₂⟩

/-- Exactly the bits of a bloom have a vector, with the bit of the `k`-th bloom at position `k`, and
only the next bloom is taken. -/
structure Rotates (sections : ℕ) : Prop where
  transposes : ∀ blooms : List Bloom, blooms.length = sections → ∃ g₀ g, newGenerator sections =
    .ok g₀ ∧ g₀.addBlooms blooms = some g ∧
    (∀ i < 2048, ∃ v, g.bitset i = .ok v ∧ ∀ k < sections, v.at k = (blooms.getD k 0).getLsbD i) ∧
    ∀ i, 2048 ≤ i → ∃ e, g.bitset i = .error (.err e)
  rejects : ∀ (g : Generator sections) index bloom, index ≠ g.nextBit ∨ sections ≤ g.nextBit →
    ∃ e, g.addBloom index bloom = some (g, some e)

theorem exists_generator (aligned : 8 ∣ sections) (all : blooms.length = sections) :
    ∃ g₀ g, newGenerator sections = .ok g₀ ∧ g₀.addBlooms blooms = some g ∧ g.Holds blooms := by
  have start : Holds (⟨fun _ _ => 0, 0⟩ : Generator sections) [] :=
    ⟨rfl, fun i k _ => by simp [at_zero]⟩
  obtain ⟨g, added, h⟩ :=
    start.addBlooms aligned (show ([] : List Bloom).length + blooms.length ≤ sections by simp [all])
  exact ⟨_, g, if_neg (by omega), added, h⟩

theorem rejects (g : Generator sections) {index : ℕ} (bloom : Bloom)
    (other : index ≠ g.nextBit ∨ sections ≤ g.nextBit) :
    ∃ e, g.addBloom index bloom = some (g, some e) := by
  unfold addBloom
  split_ifs with full known
  · exact ⟨_, rfl⟩
  · exact ⟨_, rfl⟩
  · omega
  · omega

/-- The rotation is right exactly for sections of as many blocks as a bloom has bits. -/
theorem rotates_iff (sections : ℕ) (pos : 0 < sections) (aligned : 8 ∣ sections) :
    Rotates sections ↔ sections = 2048 := by
  constructor
  · intro h
    obtain ⟨g₀, g, start, added, low, high⟩ := h.transposes (replicate sections 0) length_replicate
    have full : g.nextBit = sections := by
      obtain ⟨g₀', g', start', added', holds⟩ :=
        exists_generator aligned (length_replicate (n := sections) (a := (0 : Bloom)))
      cases start.symm.trans start'
      cases added.symm.trans added'
      simpa using holds.nextBit
    rcases lt_trichotomy sections 2048 with lt | eq | gt
    · -- the vector of the bit `sections` is refused
      obtain ⟨v, hv, -⟩ := low sections lt
      simp [bitset, full] at hv
    · exact eq
    · -- the bit 2048 is looked up in an array of 2048 vectors
      obtain ⟨e, he⟩ := high 2048 le_rfl
      simp [bitset, full, not_le.2 gt] at he
  · rintro rfl
    refine ⟨fun blooms all => ?_, fun g index bloom other => rejects g bloom other⟩
    obtain ⟨g₀, g, start, added, h⟩ := exists_generator aligned all
    have full : g.nextBit = 2048 := h.nextBit.trans all
    refine ⟨g₀, g, start, added,
      fun i hi => ⟨g.blooms ⟨i, hi⟩, ?_, fun k hk => h.bits ⟨i, hi⟩ k hk⟩, fun i hi => ?_⟩
    · simp [bitset, full, hi]
    · exact ⟨.sectionOutOfBounds, by simp [bitset, full, hi]⟩

theorem rotates_full_section : 0 < 2048 ∧ 8 ∣ 2048 ∧ Rotates 2048 :=
  ⟨by decide, by decide, (rotates_iff 2048 (by decide) (by decide)).2 rfl⟩

/-- A section of eight blocks has no vector for the bit 8 of its blooms. -/
theorem bit_out_of_section : ∃ g₀ g : Generator 8, newGenerator 8 = .ok g₀ ∧
    g₀.addBlooms (List.replicate 8 0) = some g ∧ g.bitset 8 = .error (.err .sectionOutOfBounds) :=
  ⟨_, _, rfl, rfl, rfl⟩

end Generator

end JuChain.Bloombits
