import JuChain.Types.Header

/-!
# Log blooms

`core/types/bloom9.go`.  A log enters a bloom with all bytes of its address and topics, but
`Bloom.Add` and `Bloom.Test` take a big integer, whose bytes begin at the first one that is not zero
(`neverDenied_iff`).
-/

namespace JuChain.Types

open List BigEndian State

section

variable (keccak : Bytes → Hash)

def bloom9 (b : Bytes) : ℕ :=
  let hash := hashBytes (keccak b)
  [0, 2, 4].foldl (fun r i =>
    r ||| 1 <<< (((hash.getD (i + 1) 0).toNat + (hash.getD i 0).toNat <<< 8) &&& 2047)) 0

namespace Bloom

/-- The bytes in front of the copied ones stay; `none` is a panic. -/
def setBytes (b : Bloom) (d : Bytes) : Option Bloom :=
  if 256 < d.length then none
  else some (BitVec.ofNat 2048 (b.toNat / 256 ^ d.length * 256 ^ d.length + value d))

/-- `Bloom.Add`. -/
def add (b : Bloom) (d : ℤ) : Option Bloom :=
  b.setBytes (minimal (b.toNat ||| bloom9 keccak (minimal d.natAbs)))

/-- `BloomLookup`, with the bytes of the topic. -/
def lookup (b : Bloom) (topic : Bytes) : Bool := b.toNat &&& bloom9 keccak topic = bloom9 keccak topic

/-- `Bloom.Test`. -/
def test (b : Bloom) (test : ℤ) : Bool := b.lookup keccak (minimal test.natAbs)

/-- `Bloom.TestBytes`. -/
def testBytes (b : Bloom) (test : Bytes) : Bool := b.test keccak (value test)

end Bloom

def logsBloom (logs : List Log) : ℕ :=
  logs.foldl (fun bin log => log.topics.foldl (fun bin b => bin ||| bloom9 keccak (hashBytes b))
    (bin ||| bloom9 keccak (addressBytes log.address))) 0

/-- Of the receipts, only the logs are read. -/
def createBloom (receipts : List (List Log)) : Option Bloom :=
  Bloom.setBytes 0 (minimal (receipts.foldl (fun bin logs => bin ||| logsBloom keccak logs) 0))

/-- What a log adds to a bloom. -/
inductive LogItem where
  | address (a : Address)
  | topic (h : Hash)

/-- The bytes that are hashed when a log enters a bloom. -/
def LogItem.bytes : LogItem → Bytes
  | address a => addressBytes a
  | topic h => hashBytes h

/-- The bytes of the item as a big integer. -/
def LogItem.stripped (x : LogItem) : Bytes := minimal (value x.bytes)

/-- The items of a log. -/
def items (log : Log) : List LogItem := .address log.address :: log.topics.map .topic

/-- The items of all logs. -/
def logged (receipts : List (List Log)) : List LogItem :=
  receipts.flatMap fun logs => logs.flatMap items

/-- The bloom of the receipts, with more items added one by one. -/
def fill (receipts : List (List Log)) (added : List LogItem) : Option Bloom :=
  (createBloom keccak receipts).bind (added.foldlM fun b x => b.add keccak (value x.bytes))

/-- Whatever else is in a bloom with the item, every question gets a yes. -/
def NeverDenied (x : LogItem) : Prop :=
  ∀ receipts added, ∃ b, fill keccak receipts added = some b ∧ (x ∈ logged receipts ++ added →
    b.lookup keccak x.bytes = true ∧ b.test keccak (value x.bytes) = true ∧
      b.testBytes keccak x.bytes = true)

/-- The bits of a hash: three numbers of eleven bits, from its first six bytes. -/
def hashBits (b : Bytes) : List ℕ :=
  [0, 2, 4].map fun i => (((hashBytes (keccak b)).getD i 0).toNat * 256 +
    ((hashBytes (keccak b)).getD (i + 1) 0).toNat) % 2048

/-- Leading zeros do no harm: without them the hash has the same bits, or other items of each log
have those that are missing. -/
structure Agrees (x : LogItem) : Prop where
  asked : ∀ k ∈ hashBits keccak x.bytes, k ∈ hashBits keccak x.stripped
  entered : ∀ log, x ∈ items log → ∀ k ∈ hashBits keccak x.stripped,
    ∃ y ∈ items log, k ∈ hashBits keccak y.bytes

/-! ## Bits -/

variable {keccak} {α : Type}

theorem testBit_bloom9 {b : Bytes} {k : ℕ} :
    (bloom9 keccak b).testBit k = true ↔ k ∈ hashBits keccak b := by
  have bit (hi lo : ℕ) : (1 <<< ((lo + hi <<< 8) &&& 2047)).testBit k = true ↔
      k = (hi * 256 + lo) % 2048 := by
    rw [Nat.and_two_pow_sub_one_eq_mod _ 11, Nat.one_shiftLeft, Nat.testBit_two_pow,
      decide_eq_true_eq, Nat.shiftLeft_eq, Nat.add_comm, eq_comm]
  simp only [bloom9, hashBits, foldl_cons, foldl_nil, map_cons, map_nil, Nat.testBit_or,
    Bool.or_eq_true, bit, mem_cons, not_mem_nil, Nat.zero_testBit, Bool.false_eq_true, or_false,
    false_or, or_assoc]

theorem lookup_iff {b : Bloom} {topic : Bytes} :
    b.lookup keccak topic = true ↔ ∀ k ∈ hashBits keccak topic, b.toNat.testBit k = true := by
  simp only [Bloom.lookup, decide_eq_true_eq, Nat.eq_iff_testBit_eq, Nat.testBit_and,
    Bool.and_eq_right_iff_imp, ← testBit_bloom9]

theorem bloom9_high (b : Bytes) {k : ℕ} (high : 2048 ≤ k) :
    (bloom9 keccak b).testBit k = false := by
  refine Bool.eq_false_iff.2 fun bit => ?_
  obtain ⟨i, -, rfl⟩ := mem_map.1 (testBit_bloom9.1 bit)
  omega

theorem testBit_foldl {step : ℕ → α → ℕ} {bits : α → ℕ → Bool}
    (h : ∀ bin x k, (step bin x).testBit k = (bin.testBit k || bits x k)) (xs : List α) (bin k : ℕ) :
    (xs.foldl step bin).testBit k = (bin.testBit k || xs.any (bits · k)) := by
  induction xs generalizing bin with
  | nil => simp
  | cons x xs ih => simp [ih, h, Bool.or_assoc]

theorem testBit_logsBloom (logs : List Log) (k : ℕ) : (logsBloom keccak logs).testBit k =
    (logs.flatMap items).any fun x => (bloom9 keccak x.bytes).testBit k := by
  have one : ∀ bin (log : Log) k,
      (log.topics.foldl (fun bin b => bin ||| bloom9 keccak (hashBytes b))
        (bin ||| bloom9 keccak (addressBytes log.address))).testBit k =
        (bin.testBit k || (items log).any fun x => (bloom9 keccak x.bytes).testBit k) := by
    intro bin log k
    rw [testBit_foldl fun bin b k => Nat.testBit_or bin (bloom9 keccak (hashBytes b)) k]
    simp [items, LogItem.bytes, Bool.or_assoc, Function.comp_def]
  rw [logsBloom, testBit_foldl one]
  simp [any_flatMap]

theorem setBytes_minimal {b : Bloom} {n : ℕ} (above : b.toNat ≤ n)
    (high : ∀ k, 2048 ≤ k → n.testBit k = false) :
    ∃ b', b.setBytes (minimal n) = some b' ∧ b'.toNat = n := by
  have lt := Nat.lt_pow_two_of_testBit n high
  have bound (w : ℕ) (hw : 2048 = 8 * w) : n < 256 ^ w := by
    rw [hw, Nat.pow_mul] at lt
    exact lt
  have fits : (minimal n).length ≤ 256 := length_minimal_le.2 (bound 256 rfl)
  have all : b.toNat < 256 ^ (minimal n).length := above.trans_lt (length_minimal_le.1 le_rfl)
  refine ⟨_, if_neg (by omega), ?_⟩
  rw [Nat.div_eq_of_lt all, Nat.zero_mul, Nat.zero_add, value_minimal, BitVec.toNat_ofNat,
    Nat.mod_eq_of_lt lt]

variable (keccak)

theorem exists_createBloom (receipts : List (List Log)) : ∃ b, createBloom keccak receipts = some b ∧
    ∀ k, b.toNat.testBit k = (logged receipts).any fun x => (bloom9 keccak x.bytes).testBit k := by
  have bits := testBit_foldl (fun bin logs k => (Nat.testBit_or bin (logsBloom keccak logs) k).trans
    (by rw [testBit_logsBloom])) receipts 0
  have high (k : ℕ) (hk : 2048 ≤ k) :
      (receipts.foldl (fun bin logs => bin ||| logsBloom keccak logs) 0).testBit k = false := by
    rw [bits k]
    simp [bloom9_high _ hk]
  obtain ⟨b, made, eq⟩ :=
    setBytes_minimal (b := 0#2048) (BitVec.toNat_zero.trans_le (Nat.zero_le _)) high
  exact ⟨b, made, fun k => by rw [eq, bits k]; simp [logged, any_flatMap]⟩

theorem exists_added (b : Bloom) (added : List LogItem) :
    ∃ b', added.foldlM (fun b x => b.add keccak (value x.bytes)) b = some b' ∧
      ∀ k, b'.toNat.testBit k =
        (b.toNat.testBit k || added.any fun x => (bloom9 keccak x.stripped).testBit k) := by
  induction added generalizing b with
  | nil => exact ⟨b, rfl, by simp⟩
  | cons x added ih =>
    let bin := b.toNat ||| bloom9 keccak x.stripped
    obtain ⟨b₁, put, eq⟩ := setBytes_minimal (n := bin) Nat.left_le_or fun k high => by
      rw [Nat.testBit_or, bloom9_high _ high, Bool.or_false]
      exact BitVec.getLsbD_of_ge b k high
    obtain ⟨b₂, rest, bits⟩ := ih b₁
    refine ⟨b₂, ?_, fun k => by simp [bits, eq, bin, Nat.testBit_or, Bool.or_assoc]⟩
    rw [foldlM_cons, Bloom.add, Int.natAbs_natCast, ← LogItem.stripped, put]
    exact rest

theorem exists_fill (receipts : List (List Log)) (added : List LogItem) :
    ∃ b, fill keccak receipts added = some b ∧ ∀ k, b.toNat.testBit k = true ↔
      (∃ y ∈ logged receipts, k ∈ hashBits keccak y.bytes) ∨
        ∃ y ∈ added, k ∈ hashBits keccak y.stripped := by
  obtain ⟨b₁, made, bits₁⟩ := exists_createBloom keccak receipts
  obtain ⟨b₂, rest, bits₂⟩ := exists_added keccak b₁ added
  exact ⟨b₂, by rw [fill, made]; exact rest, fun k => by simp [bits₂, bits₁, testBit_bloom9]⟩

variable {keccak} {x : LogItem}

theorem agrees_of_head (head : x.bytes.head? ≠ some 0) : Agrees keccak x := by
  have same : x.stripped = x.bytes := minimal_value head
  exact ⟨fun k bit => same ▸ bit, fun log mem k bit => ⟨x, mem, same ▸ bit⟩⟩

theorem NeverDenied.agrees (h : NeverDenied keccak x) : Agrees keccak x where
  asked := by
    intro k bit
    obtain ⟨b, filled, bits⟩ := exists_fill keccak [] [x]
    obtain ⟨b', filled', ask⟩ := h [] [x]
    cases filled.symm.trans filled'
    simpa [logged] using (bits k).1 (lookup_iff.1 (ask (by simp)).1 k bit)
  entered := by
    intro log mem k bit
    obtain ⟨b, filled, bits⟩ := exists_fill keccak [[log]] []
    obtain ⟨b', filled', ask⟩ := h [[log]] []
    cases filled.symm.trans filled'
    simpa [logged] using (bits k).1 (lookup_iff.1 (ask (by simpa [logged] using mem)).2.1 k bit)

theorem Agrees.neverDenied (agrees : Agrees keccak x) : NeverDenied keccak x := by
  intro receipts added
  obtain ⟨b, filled, bits⟩ := exists_fill keccak receipts added
  refine ⟨b, filled, fun mem => ?_⟩
  have stripped : ∀ k ∈ hashBits keccak x.stripped, b.toNat.testBit k = true := by
    intro k bit
    rw [bits]
    rcases mem_append.1 mem with mem | mem
    · simp only [logged, mem_flatMap] at mem ⊢
      obtain ⟨r, hr, log, hlog, hx⟩ := mem
      obtain ⟨y, hy, bit⟩ := agrees.entered log hx k bit
      exact .inl ⟨y, ⟨r, hr, log, hlog, hy⟩, bit⟩
    · exact .inr ⟨x, mem, bit⟩
  have whole : ∀ k ∈ hashBits keccak x.bytes, b.toNat.testBit k = true :=
    fun k bit => stripped k (agrees.asked k bit)
  exact ⟨lookup_iff.2 whole, lookup_iff.2 stripped, lookup_iff.2 stripped⟩

end

/-- An item is never denied exactly when it does not begin with a zero byte, or the bits of the hash
are there without its leading zeros. -/
theorem neverDenied_iff (keccak : Bytes → Hash) (x : LogItem) :
    NeverDenied keccak x ↔ x.bytes.head? ≠ some 0 ∨ Agrees keccak x := by
  constructor
  · exact fun h => .inr h.agrees
  · rintro (head | agrees)
    · exact (agrees_of_head head).neverDenied
    · exact agrees.neverDenied

/-- A hash function that gives no bytes and the zero address their Keccak-256 hashes. -/
def zeroKeccak (b : Bytes) : Hash :=
  if b = [] then 0xc5d2460186f7233c927e7db2dcc703c0e500b653ca82273b7bfad8045d85a470
  else 0x5380c7b7ae81a58eb98d9c78de4a1fd7fd9535fc953ed2be602daaa41767312a

/-- A log of the zero address is in the bloom, but `TestBytes` asks for no bytes. -/
theorem zero_address_denied :
    ∃ b, fill zeroKeccak [[{ address := 0, topics := [], data := [] }]] [] = some b ∧
      b.testBytes zeroKeccak (LogItem.address 0).bytes = false := by
  obtain ⟨b, filled, bits⟩ := exists_fill zeroKeccak [[{ address := 0, topics := [], data := [] }]] []
  refine ⟨b, filled, Bool.eq_false_iff.2 fun answer => ?_⟩
  have stripped : minimal (value (addressBytes 0)) = [] := by
    rw [show value (addressBytes 0) = 0 by decide, minimal_zero]
  have set := lookup_iff.1 answer 0x5d2
  rw [Int.natAbs_natCast, LogItem.bytes, stripped, bits] at set
  revert set
  decide

end JuChain.Types
