import JuChain.Types.Transaction

/-!
# Headers

`types.Header` of `core/types/block.go` with all its fields.  `Difficulty`, `Number` and `Time` are
pointers, so that they may be nil; RLP writes nil like zero.  The hash of a header is the hash of
its RLP encoding, and the hash of nothing when an integer is negative.
-/

namespace JuChain.Types

open BigEndian RLP JuChain.Rlp List Option

abbrev Bloom := BitVec 2048

abbrev BlockNonce := BitVec 64

/-- The bytes of a bloom. -/
def bloomBytes (b : Bloom) : Bytes := fixed 256 b.toNat

/-- The bytes of a nonce. -/
def nonceBytes (n : BlockNonce) : Bytes := fixed 8 n.toNat

@[simp] theorem length_bloomBytes (b : Bloom) : (bloomBytes b).length = 256 := length_fixed 256 _

@[simp] theorem length_nonceBytes (n : BlockNonce) : (nonceBytes n).length = 8 := length_fixed 8 _

@[ext]
structure Header where
  parentHash : Hash
  uncleHash : Hash
  coinbase : Address
  root : Hash
  txHash : Hash
  receiptHash : Hash
  bloom : Bloom
  difficulty : Option ℤ
  number : Option ℤ
  gasLimit : UInt64
  gasUsed : UInt64
  time : Option ℤ
  extra : Bytes
  mixDigest : Hash
  nonce : BlockNonce
  round : UInt64
  round2 : UInt64
  presidentId : GoString
  dappID : Address
  dappMainHash : Hash
  deriving DecidableEq

/-- `new(Header)`. -/
def Header.zero : Header where
  parentHash := 0
  uncleHash := 0
  coinbase := 0
  root := 0
  txHash := 0
  receiptHash := 0
  bloom := 0
  difficulty := none
  number := none
  gasLimit := 0
  gasUsed := 0
  time := none
  extra := []
  mixDigest := 0
  nonce := 0
  round := 0
  round2 := 0
  presidentId := []
  dappID := 0
  dappMainHash := 0

/-- A pointer to a number. -/
def writeBigIntPtr : Option ℤ → Writer
  | none => fun w => .ok (w.write [0x80])
  | some i => writeBigInt i

/-- The encoding of a header. -/
def Header.writer (h : Header) : Writer :=
  writeList [
    writeBytes (hashBytes h.parentHash),
    writeBytes (hashBytes h.uncleHash),
    writeBytes (addressBytes h.coinbase),
    writeBytes (hashBytes h.root),
    writeBytes (hashBytes h.txHash),
    writeBytes (hashBytes h.receiptHash),
    writeBytes (bloomBytes h.bloom),
    writeBigIntPtr h.difficulty,
    writeBigIntPtr h.number,
    writeUint h.gasLimit,
    writeUint h.gasUsed,
    writeBigIntPtr h.time,
    writeBytes h.extra,
    writeBytes (hashBytes h.mixDigest),
    writeBytes (nonceBytes h.nonce),
    writeUint h.round,
    writeUint h.round2,
    writeBytes h.presidentId,
    writeBytes (addressBytes h.dappID),
    writeBytes (hashBytes h.dappMainHash)]

/-- `Header.Hash`. -/
def Header.hash (keccak : Bytes → Hash) (h : Header) : Hash := rlpHash keccak h.writer

/-! ## Items -/

/-- The item of a number. -/
def bigItem (i : Option ℤ) : Item := numberItem (i.getD 0).natAbs

/-- The items of a header. -/
def Header.items (h : Header) : List Item := [
  .str (hashBytes h.parentHash),
  .str (hashBytes h.uncleHash),
  .str (addressBytes h.coinbase),
  .str (hashBytes h.root),
  .str (hashBytes h.txHash),
  .str (hashBytes h.receiptHash),
  .str (bloomBytes h.bloom),
  bigItem h.difficulty,
  bigItem h.number,
  numberItem h.gasLimit.toNat,
  numberItem h.gasUsed.toNat,
  bigItem h.time,
  .str h.extra,
  .str (hashBytes h.mixDigest),
  .str (nonceBytes h.nonce),
  numberItem h.round.toNat,
  numberItem h.round2.toNat,
  .str h.presidentId,
  .str (addressBytes h.dappID),
  .str (hashBytes h.dappMainHash)]

/-- No integer is negative, so that there is an encoding. -/
structure Header.Encodable (h : Header) : Prop where
  difficulty : 0 ≤ h.difficulty.getD 0
  number : 0 ≤ h.number.getD 0
  time : 0 ≤ h.time.getD 0

/-- No number is nil. -/
structure Header.Set (h : Header) : Prop where
  difficulty : h.difficulty ≠ none
  number : h.number ≠ none
  time : h.time ≠ none

theorem fixed_toNat_injective (w : ℕ) :
    Function.Injective fun b : BitVec (8 * w) => fixed w b.toNat := by
  intro a b h
  have lt (c : BitVec (8 * w)) : c.toNat < 256 ^ w := by
    rw [show 256 = 2 ^ 8 by norm_num, ← pow_mul]
    exact c.isLt
  exact BitVec.eq_of_toNat_eq (fixed_injOn (lt a) (lt b) h)

theorem ofNat_value_fixed (w : ℕ) (b : BitVec (8 * w)) :
    BitVec.ofNat (8 * w) (value (fixed w b.toNat)) = b := by
  apply BitVec.eq_of_toNat_eq
  rw [value_fixed, BitVec.toNat_ofNat, show 256 = 2 ^ 8 by norm_num, ← pow_mul, Nat.mod_mod,
    Nat.mod_eq_of_lt b.isLt]

theorem bloomBytes_injective : Function.Injective bloomBytes := fixed_toNat_injective 256

theorem nonceBytes_injective : Function.Injective nonceBytes := fixed_toNat_injective 8

variable {i : Option ℤ} {h : Header} {bss : List Bytes}

theorem writes_bigIntPtr (h : 0 ≤ i.getD 0) : Writes (writeBigIntPtr i) (bigItem i) := by
  cases i with
  | none => exact fun w => congrArg _ (encodeString_nil_eq w).symm
  | some i => exact writes_bigInt h

theorem fails_bigIntPtr (h : i.getD 0 < 0) : Fails (writeBigIntPtr i) := by
  cases i with
  | none => exact absurd h (lt_irrefl 0)
  | some i => exact fails_bigInt h

@[simp] theorem settles_bigIntPtr (i : Option ℤ) : Settles (writeBigIntPtr i) := by
  rcases lt_or_ge (i.getD 0) 0 with neg | nonneg
  · exact .inl (fails_bigIntPtr neg)
  · exact .inr ⟨_, writes_bigIntPtr nonneg⟩

theorem bigItem_inj {j : Option ℤ} (hi : i ≠ none) (hj : j ≠ none) (pi : 0 ≤ i.getD 0)
    (pj : 0 ≤ j.getD 0) (h : bigItem i = bigItem j) : i = j := by
  obtain ⟨i, rfl⟩ := ne_none_iff_exists'.1 hi
  obtain ⟨j, rfl⟩ := ne_none_iff_exists'.1 hj
  simp only [getD_some] at pi pj
  have := numberItem_inj.1 h
  simp only [getD_some] at this
  rw [some.injEq]
  omega

theorem uintItem_inj {m n : UInt64} (h : numberItem m.toNat = numberItem n.toNat) : m = n :=
  UInt64.toNat_inj.1 (numberItem_inj.1 h)

theorem Header.writes_writer (enc : h.Encodable) : Writes h.writer (.list h.items) := by
  apply writes_list
  simp [items, numberItem, writes_bigIntPtr, enc.difficulty, enc.number, enc.time]

theorem Header.hash_of_encodable {keccak : Bytes → Hash} (enc : h.Encodable)
    (fits : (Item.list h.items).Fits (2 ^ 64)) : h.hash keccak = keccak (Item.list h.items).encode :=
  rlpHash_of_writes (writes_writer enc) fits

/-- Tells one input from all others. -/
def tell (b₀ bs : Bytes) : Hash := if bs = b₀ then 1 else 0

theorem eq_of_tell {b₀ bs : Bytes} (h : tell b₀ bs = tell b₀ b₀) : bs = b₀ := by
  by_contra ne
  rw [tell, tell, if_neg ne, if_pos rfl] at h
  exact absurd h (by decide)

/-! ## Sizes -/

theorem length_encode_str_le {bs : Bytes} (h : bs.length < 2 ^ 64) :
    (Item.str bs).encode.length ≤ bs.length + 9 := by
  rw [Item.encode]
  unfold encodeString
  split_ifs with single
  · omega
  · rw [length_append]
    have : (RLP.header 0x80 0xB7 bs.length).length ≤ 9 := by
      rcases Nat.lt_or_ge bs.length 56 with short | long
      · rw [header_short short, length_singleton]
        norm_num
      · rw [header_long long, length_cons]
        have := length_minimal_of_lt h
        omega
    omega

theorem length_encodeAll_strs (h : ∀ bs ∈ bss, bs.length < 2 ^ 64) :
    (encodeAll (bss.map Item.str)).length ≤ (bss.map fun bs => bs.length + 9).sum := by
  induction bss with
  | nil => simp [encodeAll]
  | cons bs bss ih =>
    rw [forall_mem_cons] at h
    rw [map_cons, map_cons, sum_cons, encodeAll, length_append]
    exact Nat.add_le_add (length_encode_str_le h.1) (ih h.2)

theorem fits_strs (h : (bss.map fun bs => bs.length + 9).sum < 2 ^ 64) :
    (Item.list (bss.map Item.str)).Fits (2 ^ 64) := by
  have each : ∀ bs ∈ bss, bs.length < 2 ^ 64 := by
    intro bs hbs
    have := single_le_sum (fun _ _ => Nat.zero_le _) _
      (mem_map_of_mem (f := fun bs : Bytes => bs.length + 9) hbs)
    omega
  refine ⟨Nat.lt_of_le_of_lt (length_encodeAll_strs each) h, allFit_iff.2 fun x hx => ?_⟩
  obtain ⟨bs, hbs, rfl⟩ := mem_map.1 hx
  exact each bs hbs

/-- The strings in the encoding. -/
def Header.strings (h : Header) : List Bytes := [
  hashBytes h.parentHash, hashBytes h.uncleHash, addressBytes h.coinbase, hashBytes h.root,
    hashBytes h.txHash,
  hashBytes h.receiptHash, bloomBytes h.bloom, minimal (h.difficulty.getD 0).natAbs,
    minimal (h.number.getD 0).natAbs,
  minimal h.gasLimit.toNat, minimal h.gasUsed.toNat, minimal (h.time.getD 0).natAbs, h.extra,
    hashBytes h.mixDigest,
  nonceBytes h.nonce, minimal h.round.toNat, minimal h.round2.toNat, h.presidentId,
    addressBytes h.dappID,
  hashBytes h.dappMainHash]

theorem Header.items_eq (h : Header) : h.items = h.strings.map Item.str := rfl

theorem Header.fits_items (hd : (h.difficulty.getD 0).natAbs < 2 ^ 256)
    (hn : (h.number.getD 0).natAbs < 2 ^ 256) (ht : (h.time.getD 0).natAbs < 2 ^ 256)
    (strings : h.extra.length + h.presidentId.length < 2 ^ 63) : (Item.list h.items).Fits (2 ^ 64) := by
  have big {n : ℕ} (hn : n < 2 ^ 256) : (minimal n).length ≤ 32 :=
    length_minimal_le.2 (lt_of_lt_of_eq hn (by norm_num))
  have uint (i : UInt64) : (minimal i.toNat).length ≤ 8 := length_minimal_of_lt i.toNat_lt
  have ld := big hd
  have ln := big hn
  have lt := big ht
  have lgl := uint h.gasLimit
  have lgu := uint h.gasUsed
  have lr := uint h.round
  have lr2 := uint h.round2
  rw [items_eq]
  apply fits_strs
  simp only [Header.strings, map_cons, map_nil, sum_cons, sum_nil, length_hashBytes,
    length_addressBytes, length_bloomBytes, length_nonceBytes]
  linarith

end JuChain.Types
