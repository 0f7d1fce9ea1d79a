import JuChain.Types.Header
import JuChain.Types.Signing

/-!
# The seal of a clique header

`sigHash` and `ecrecover` of `consensus/solo/clique.go`.  The signature does not cover `Round2`,
`DAppID` and `DAppMainHash`; these three can be replaced in a sealed header (`seal_binds_iff`).
-/

namespace JuChain.Clique

open BigEndian RLP JuChain.Rlp JuChain.Types

def extraSeal : ℕ := 65

/-- The extra data without the signature, `Extra[:len(Extra)-65]`. -/
def unsealed (extra : Bytes) : Bytes := extra.take (extra.length - 65)

/-- What `sigHash` encodes. -/
def sigWriter (h : Types.Header) : Writer :=
  writeList [
    writeBytes (hashBytes h.parentHash),
    writeBytes (hashBytes h.uncleHash),
    writeBytes (addressBytes h.coinbase),
    writeBytes (hashBytes h.root),
    writeBytes (hashBytes h.txHash),
    writeBytes (hashBytes h.receiptHash),
    writeBytes (bloomBytes h.bloom),
    writeBigIntPtr h.difficulty,
    writeBigIntPtr h.number,
    writeUint h.gasLimit,
    writeUint h.gasUsed,
    writeBigIntPtr h.time,
    writeBytes (unsealed h.extra),
    writeBytes (hashBytes h.mixDigest),
    writeBytes (nonceBytes h.nonce),
    writeUint h.round,
    writeBytes h.presidentId]

/-- `sigHash`, on headers with at least 65 bytes of extra data; on others it panics. -/
def sigHash (keccak : Bytes → Hash) (h : Types.Header) : Hash := rlpHash keccak (sigWriter h)

/-- The modelled errors of the engine; that of the curve keeps its text. -/
inductive Err where
  | unknownBlock
  | missingSignature
  | invalidDifficulty
  | invalidVote
  | invalidVotingChain
  | unauthorized
  | crypto (e : String)
  deriving DecidableEq

/-- The recovery in `ecrecover`. -/
def recover (C : Crypto) (h : Types.Header) : Except Err Address :=
  if h.extra.length < extraSeal then .error .missingSignature
  else
    match C.ecrecover (sigHash C.keccak h) (h.extra.drop (h.extra.length - extraSeal)) with
    | .error e => .error (.crypto e)
    | .ok pub => .ok (C.address pub)

/-- The items that `sigHash` encodes. -/
def sigItems (h : Types.Header) : List Item := [
  .str (hashBytes h.parentHash),
  .str (hashBytes h.uncleHash),
  .str (addressBytes h.coinbase),
  .str (hashBytes h.root),
  .str (hashBytes h.txHash),
  .str (hashBytes h.receiptHash),
  .str (bloomBytes h.bloom),
  bigItem h.difficulty,
  bigItem h.number,
  numberItem h.gasLimit.toNat,
  numberItem h.gasUsed.toNat,
  bigItem h.time,
  .str (unsealed h.extra),
  .str (hashBytes h.mixDigest),
  .str (nonceBytes h.nonce),
  numberItem h.round.toNat,
  .str h.presidentId]

/-- The headers agree in all fields that are signed. -/
structure SameSigned (a b : Types.Header) : Prop where
  parentHash : a.parentHash = b.parentHash
  uncleHash : a.uncleHash = b.uncleHash
  coinbase : a.coinbase = b.coinbase
  root : a.root = b.root
  txHash : a.txHash = b.txHash
  receiptHash : a.receiptHash = b.receiptHash
  bloom : a.bloom = b.bloom
  difficulty : a.difficulty = b.difficulty
  number : a.number = b.number
  gasLimit : a.gasLimit = b.gasLimit
  gasUsed : a.gasUsed = b.gasUsed
  time : a.time = b.time
  extra : unsealed a.extra = unsealed b.extra
  mixDigest : a.mixDigest = b.mixDigest
  nonce : a.nonce = b.nonce
  round : a.round = b.round
  presidentId : a.presidentId = b.presidentId

/-- All fields are the same but for the last 65 bytes of the extra data. -/
structure SameButSeal (a b : Types.Header) : Prop extends SameSigned a b where
  round2 : a.round2 = b.round2
  dappID : a.dappID = b.dappID
  dappMainHash : a.dappMainHash = b.dappMainHash

/-- What is signed has a length of 64 bits, as everything that fits in memory. -/
def Sized (h : Types.Header) : Prop := h.Encodable → (Item.list (sigItems h)).Fits (2 ^ 64)

/-- Nothing else has the signing hash of the header. -/
def NoCollision (keccak : Bytes → Hash) (a : Types.Header) : Prop :=
  ∀ b, sigHash keccak b = sigHash keccak a → encodeWith (sigWriter b) = encodeWith (sigWriter a)

section Seal

variable {keccak : Bytes → Hash} {a b : Types.Header}

theorem writes_sigWriter (enc : a.Encodable) : Writes (sigWriter a) (.list (sigItems a)) := by
  apply writes_list
  simp [sigItems, numberItem, writes_bigIntPtr, enc.difficulty, enc.number, enc.time]

theorem fails_sigWriter (h : ¬ a.Encodable) : Fails (sigWriter a) := by
  apply fails_list
  · simp
  · rcases lt_or_ge (a.difficulty.getD 0) 0 with neg | hd
    · exact ⟨writeBigIntPtr a.difficulty, by simp, fails_bigIntPtr neg⟩
    rcases lt_or_ge (a.number.getD 0) 0 with neg | hn
    · exact ⟨writeBigIntPtr a.number, by simp, fails_bigIntPtr neg⟩
    rcases lt_or_ge (a.time.getD 0) 0 with neg | ht
    · exact ⟨writeBigIntPtr a.time, by simp, fails_bigIntPtr neg⟩
    · exact absurd ⟨hd, hn, ht⟩ h

theorem encodable_of_encodeWith {bs : Bytes} (h : encodeWith (sigWriter a) = .ok bs) : a.Encodable := by
  by_contra enc
  rw [encodeWith_of_fails (fails_sigWriter enc)] at h
  cases h

theorem sameSigned_of_items (ha : a.Encodable) (hb : b.Encodable) (sa : a.Set) (sb : b.Set)
    (eq : sigItems a = sigItems b) : SameSigned a b := by
  simp only [sigItems, List.cons.injEq, and_true, Item.str.injEq, hashBytes_injective.eq_iff,
    addressBytes_injective.eq_iff, bloomBytes_injective.eq_iff, nonceBytes_injective.eq_iff] at eq
  obtain ⟨h1, h2, h3, h4, h5, h6, h7, h8, h9, h10, h11, h12, h13, h14, h15, h16, h17⟩ := eq
  exact ⟨h1, h2, h3, h4, h5, h6, h7,
    bigItem_inj sa.difficulty sb.difficulty ha.difficulty hb.difficulty h8,
    bigItem_inj sa.number sb.number ha.number hb.number h9, uintItem_inj h10, uintItem_inj h11,
    bigItem_inj sa.time sb.time ha.time hb.time h12, h13, h14, h15, uintItem_inj h16, h17⟩

theorem sameSigned_of_sigHash (free : NoCollision keccak a) (enc : a.Encodable) (sa : a.Set)
    (sb : b.Set) (za : Sized a)
    (zb : Sized b) (h : sigHash keccak b = sigHash keccak a) : SameSigned b a := by
  have written := free b h
  rw [encodeWith_of_writes (writes_sigWriter enc) (za enc)] at written
  have enc' := encodable_of_encodeWith written
  rw [encodeWith_of_writes (writes_sigWriter enc') (zb enc')] at written
  have items : Item.list (sigItems b) = .list (sigItems a) :=
    encode_inj (zb enc') (za enc) (Except.ok.inj written)
  exact sameSigned_of_items enc' enc sb sa (Item.list.inj items)

/-- `a` with other values in the fields that are not signed. -/
def reseal (a : Types.Header) (round2 : UInt64) (dappID : Address) (dappMainHash : Hash) :
    Types.Header :=
  { a with round2 := round2, dappID := dappID, dappMainHash := dappMainHash }

/-- Headers with the same signing hash differ in the signature at most, if and only if `Round2`,
`DAppID` and `DAppMainHash` are the same and no integer is negative. -/
theorem seal_binds_iff (free : NoCollision keccak a) (long : extraSeal ≤ a.extra.length)
    (set : a.Set) (sized : Sized a) (round2 : UInt64) (dappID : Address) (dappMainHash : Hash) :
    (∀ b : Types.Header, extraSeal ≤ b.extra.length → b.Set → Sized b → b.round2 = round2 →
      b.dappID = dappID →
        b.dappMainHash = dappMainHash → sigHash keccak b = sigHash keccak a → SameButSeal b a) ↔
      a.Encodable ∧ round2 = a.round2 ∧ dappID = a.dappID ∧ dappMainHash = a.dappMainHash := by
  constructor
  · intro bound
    have same := bound (reseal a round2 dappID dappMainHash) long ⟨set.1, set.2, set.3⟩
      (fun h => sized ⟨h.1, h.2, h.3⟩) rfl rfl rfl rfl
    refine ⟨?_, same.round2, same.dappID, same.dappMainHash⟩
    by_contra negative
    -- nothing is hashed of a header with a negative integer, whatever its gas limit
    let other : Types.Header := { reseal a round2 dappID dappMainHash with gasLimit := a.gasLimit + 1 }
    have negative' : ¬ other.Encodable := fun h => negative ⟨h.1, h.2, h.3⟩
    have hash : sigHash keccak other = sigHash keccak a := by
      unfold sigHash
      rw [rlpHash_of_fails (fails_sigWriter negative'), rlpHash_of_fails (fails_sigWriter negative)]
    have gas :=
      (bound other long ⟨set.1, set.2, set.3⟩ (fun h => absurd h negative') rfl rfl rfl hash).gasLimit
    exact absurd gas (by simp [other])
  · rintro ⟨enc, rfl, rfl, rfl⟩ b - sb zb hround hdapp hmain h
    exact ⟨sameSigned_of_sigHash free enc set sb sized zb h, hround, hdapp, hmain⟩

end Seal

/-- A header with a seal of zeros. -/
def sealed : Types.Header :=
  { Types.Header.zero with
    difficulty := some 2, number := some 1, time := some 0, extra := List.replicate 97 0 }

theorem seal_survives_new_round2 :
    extraSeal ≤ sealed.extra.length ∧ (reseal sealed 1 0 0).round2 ≠ sealed.round2 ∧
      ∀ C : Crypto, sigHash C.keccak (reseal sealed 1 0 0) = sigHash C.keccak sealed ∧
        recover C (reseal sealed 1 0 0) = recover C sealed :=
  ⟨by decide, by decide, fun _ => ⟨rfl, rfl⟩⟩

/-- A hash function that tells the signed fields of `sealed` from all else. -/
def sealKeccak : Bytes → Hash := tell (Item.list (sigItems sealed)).encode

theorem sealed_encodable : sealed.Encodable := ⟨by decide, by decide, by decide⟩

theorem sized_sealed : (Item.list (sigItems sealed)).Fits (2 ^ 64) :=
  Item.fits_of_encode (by decide +kernel)

theorem noCollision_sealed : NoCollision sealKeccak sealed := by
  intro b h
  have written := encodeWith_of_writes (writes_sigWriter sealed_encodable) sized_sealed
  have unique : ∀ bs, sealKeccak bs = sealKeccak (Item.list (sigItems sealed)).encode →
      bs = (Item.list (sigItems sealed)).encode := fun _ => eq_of_tell
  exact encodeWith_of_rlpHash written (encode_ne_nil _) unique h

theorem seal_binds_sealed : extraSeal ≤ sealed.extra.length ∧ sealed.Set ∧ Sized sealed ∧
      ∀ b : Types.Header, extraSeal ≤ b.extra.length → b.Set → Sized b → b.round2 = 0 →
        b.dappID = 0 → b.dappMainHash = 0 →
        sigHash sealKeccak b = sigHash sealKeccak sealed → SameButSeal b sealed := by
  have long : extraSeal ≤ sealed.extra.length := by decide
  have set : sealed.Set := ⟨by decide, by decide, by decide⟩
  have sized : Sized sealed := fun _ => sized_sealed
  exact ⟨long, set, sized,
    (seal_binds_iff noCollision_sealed long set sized 0 0 0).2 ⟨sealed_encodable, rfl, rfl, rfl⟩⟩

end JuChain.Clique
