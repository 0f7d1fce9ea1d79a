import JuChain.Lib.Runs
import JuChain.Types.Transaction

/-!
# Signatures

`core/types/transaction_signing.go`.  The value `V` of a signature holds the recovery id and the
chain id together: `2 * chainId + 35` or `36` for a chain id other than zero, 27 or 28 for chain id
zero.  The curve is a parameter: `Crypto` has the operations, `Lawful` says what is assumed of them.
-/

namespace JuChain.Types

open BigEndian JuChain.Rlp List

variable {c i v : ℤ} {tx t : Transaction} {signer : Signer} {addr : Address}

/-- The order of the curve. -/
def secp256k1N : ℤ := 0xfffffffffffffffffffffffffffffffebaaedce6af48a03bbfd25e8cd0364141

/-- Half of it. -/
def secp256k1HalfN : ℤ := secp256k1N / 2

/-- The hash function and the curve.  `fromECDSAPub` gives the public key of a private one. -/
structure Crypto where
  Key : Type
  keccak : Bytes → Hash
  sign : Hash → Key → Except String Bytes
  ecrecover : Hash → Bytes → Except String Bytes
  fromECDSAPub : Key → Bytes

variable (C : Crypto)

namespace Crypto

/-- The address of a public key: the last 20 bytes of the hash of all but the first. -/
def address (pub : Bytes) : Address :=
  bytesToAddress ((hashBytes (C.keccak (pub.drop 1))).drop 12)

def pubkeyToAddress (k : C.Key) : Address := C.address (C.fromECDSAPub k)

/-- A signature `[R || S || V]`, with `R` and `S` in range, `S` in the lower half, and `V` 0 or 1.
-/
structure Signature (sig : Bytes) (r s : ℕ) (v : UInt8) : Prop where
  format : sig = fixed 32 r ++ fixed 32 s ++ [v]
  r_pos : 0 < r
  r_lt : (r : ℤ) < secp256k1N
  s_pos : 0 < s
  s_le : (s : ℤ) ≤ secp256k1HalfN
  v_le : v = 0 ∨ v = 1

/-- `Ecrecover` inverts `Sign`, and public keys are in uncompressed form. -/
structure Lawful (C : Crypto) : Prop where
  uncompressed : ∀ k, (C.fromECDSAPub k).head? = some 4
  sign : ∀ h k, ∃ sig r s v, C.sign h k = .ok sig ∧ Signature sig r s v ∧
    C.ecrecover h sig = .ok (C.fromECDSAPub k)

end Crypto

/-- `ErrInvalidSig`, `ErrInvalidChainId`, "invalid public key", and the errors of the curve. -/
inductive SignErr where
  | invalidSig
  | invalidChainId
  | invalidPublicKey
  | crypto (msg : String)
  deriving DecidableEq

def validateSignatureValues (v : UInt8) (r s : ℤ) (homestead : Bool) : Bool :=
  if r < 1 ∨ s < 1 then false
  else if homestead ∧ secp256k1HalfN < s then false
  else r < secp256k1N ∧ s < secp256k1N ∧ (v = 0 ∨ v = 1)

def isProtectedV (v : ℤ) : Bool :=
  if bitLen v ≤ 8 then uint64 v ≠ 27 ∧ uint64 v ≠ 28 else true

def deriveChainId (v : ℤ) : ℤ :=
  if bitLen v ≤ 64 then
    if uint64 v = 27 ∨ uint64 v = 28 then 0 else ((uint64 v - 35) / 2).toNat
  else (v - 35) / 2

def newChainSigner (chainId : Option ℤ) : ChainSigner where
  chainId := chainId.getD 0
  chainIdMul := chainId.getD 0 * 2
  mul_eq := rfl

/-- `copy(sig[n-len(b):n], b)` into zeros. -/
def leftPad (n : ℕ) (b : Bytes) : Bytes := replicate (n - b.length) 0 ++ b

def recoverPlain (sighash : Hash) (r s vb : ℤ) (homestead : Bool) : Except SignErr Address :=
  if 8 < bitLen vb then .error .invalidSig
  else
    let v := (uint64 vb - 27).toUInt8
    if validateSignatureValues v r s homestead = false then .error .invalidSig
    else
      match C.ecrecover sighash
        (leftPad 32 (minimal r.natAbs) ++ leftPad 32 (minimal s.natAbs) ++ [v]) with
      | .error e => .error (.crypto e)
      | .ok pub => if pub.head? ≠ some 4 then .error .invalidPublicKey else .ok (C.address pub)

/-- The fields that are signed. -/
def TxData.signed (d : TxData) : List Writer := [
  writeUint d.accountNonce,
  writeBigInt d.price,
  writeUint d.gasLimit,
  writeArrayPtr ((deref d.recipient).map addressBytes),
  writeBigInt d.amount,
  writeBytes d.payload]

namespace Signer

/-- What the signer hashes. -/
def writer : Signer → TxData → Writer
  | .chain s, d => writeList (d.signed ++ [writeBigInt s.chainId, writeUint 0, writeUint 0])
  | .default, d => writeList d.signed
  | .plain, d => writeList d.signed

/-- `Signer.Hash`. -/
def hash (s : Signer) (tx : Tx) : Hash := rlpHash C.keccak (s.writer tx.data)

/-- `Signer.Equal`. -/
def equal : Signer → Signer → Bool
  | .chain s, .chain s2 => s2.chainId = s.chainId
  | .default, .default => true
  | .plain, .plain => true
  | _, _ => false

/-- `Sender` of the two signers without a chain id. -/
def senderPlain (s : Signer) (homestead : Bool) (tx : Tx) : Except SignErr Address :=
  recoverPlain C (s.hash C tx) tx.data.r tx.data.s tx.data.v homestead

/-- `Signer.Sender`. -/
def sender : Signer → Tx → Except SignErr Address
  | .chain s, tx =>
    if isProtectedV tx.data.v = false then senderPlain C .default true tx
    else if deriveChainId tx.data.v ≠ s.chainId then .error .invalidChainId
    else recoverPlain C (hash C (.chain s) tx) tx.data.r tx.data.s (tx.data.v - s.chainIdMul - 8) true
  | .default, tx => senderPlain C .default true tx
  | .plain, tx => senderPlain C .plain false tx

/-- `SignatureValues` without a chain id: `R`, `S` and `V`. -/
def plainValues (sig : Bytes) : Except (Fault SignErr) (ℤ × ℤ × ℤ) :=
  if sig.length ≠ 65 then .error .panic
  else .ok (value (sig.take 32), value ((sig.drop 32).take 32), (sig.getD 64 0 + 27).toNat)

/-- `Signer.SignatureValues`. -/
def signatureValues : Signer → Bytes → Except (Fault SignErr) (ℤ × ℤ × ℤ)
  | .chain s, sig => (plainValues sig).map fun (r, t, v) =>
    if s.chainId ≠ 0 then (r, t, (sig.getD 64 0 + 35).toNat + s.chainIdMul) else (r, t, v)
  | .default, sig => plainValues sig
  | .plain, sig => plainValues sig

end Signer

/-- `WithSignature`: a new transaction without caches and without a companion. -/
def Tx.withSignature (tx : Tx) (s : Signer) (sig : Bytes) : Except (Fault SignErr) Tx :=
  (s.signatureValues sig).map fun (r, t, v) => { data := { tx.data with r := r, s := t, v := v } }

/-- The steps of `SignTx`, for the transaction and again for its companion. -/
def signOne (s : Signer) (k : C.Key) (tx : Tx) : Except (Fault SignErr) Tx :=
  match C.sign (s.hash C tx) k with
  | .error e => .error (.err (.crypto e))
  | .ok sig => tx.withSignature s sig

def signTx (tx : Transaction) (s : Signer) (k : C.Key) : Except (Fault SignErr) Transaction :=
  (signOne C s k tx.toTx).bind fun signedTx =>
    match tx.dappTx with
    | none => .ok { toTx := signedTx }
    | some dappTx => (signOne C s k dappTx).map fun signed =>
      { toTx := signedTx, dappTx := some signed }

/-- The cached sender, if it was derived with an equal signer. -/
def Tx.cachedSender (tx : Tx) (signer : Signer) : Option Address :=
  match tx.cachedFrom with
  | none => none
  | some (s, addr) => if s.equal signer then some addr else none

/-- `Sender`, with the transaction after it: the senders it derived are cached. -/
def sender (C : Crypto) (signer : Signer) (tx : Transaction) : Except SignErr Address × Transaction :=
  match tx.cachedSender signer with
  | some addr => (.ok addr, tx)
  | none =>
    match signer.sender C tx.toTx with
    | .error e => (.error e, tx)
    | .ok addr =>
      match tx.dappTx with
      | none => (.ok addr, { tx with cachedFrom := some (signer, addr) })
      | some dappTx =>
        match signer.sender C dappTx with
        | .error e => (.error e, { tx with cachedFrom := some (signer, addr) })
        | .ok a =>
          (.ok addr,
            { tx with
              cachedFrom := some (signer, addr)
              dappTx := some { dappTx with cachedFrom := some (signer, a) } })

/-! ## Numbers -/

theorem bitLen_le {n : ℕ} : bitLen i ≤ n ↔ i.natAbs < 2 ^ n := Nat.size_le

theorem toNat_uint64 (h : i.natAbs < 2 ^ 64) : (uint64 i).toNat = i.natAbs := by
  rw [uint64, UInt64.toNat_ofNat', Nat.mod_eq_of_lt h]

theorem uint64_eq_iff {n : ℕ} (h : i.natAbs < 2 ^ 64) (hn : n < 2 ^ 64) :
    uint64 i = UInt64.ofNat n ↔ i.natAbs = n := by
  rw [← UInt64.toNat_inj, toNat_uint64 h, UInt64.toNat_ofNat', Nat.mod_eq_of_lt hn]

theorem value_replicate_append (k : ℕ) (bs : Bytes) : value (replicate k 0 ++ bs) = value bs := by
  induction k with
  | zero => rfl
  | succ k ih =>
    rw [replicate_succ, cons_append, value_cons, ih]
    simp

theorem leftPad_minimal {w n : ℕ} (h : n < 256 ^ w) : leftPad w (minimal n) = fixed w n := by
  have len : (leftPad w (minimal n)).length = w := by
    have := length_minimal_le.2 h
    rw [leftPad, length_append, length_replicate]
    omega
  rw [← fixed_value len, leftPad, value_replicate_append, value_minimal]

theorem isProtectedV_eq_false : isProtectedV v = false ↔ v.natAbs = 27 ∨ v.natAbs = 28 := by
  unfold isProtectedV
  by_cases short : bitLen v ≤ 8
  · have lt : v.natAbs < 2 ^ 64 := (bitLen_le.1 short).trans (by norm_num)
    have h27 := uint64_eq_iff (n := 27) lt (by norm_num)
    have h28 := uint64_eq_iff (n := 28) lt (by norm_num)
    rw [if_pos short, decide_eq_false_iff_not, not_and_or, not_not, not_not, ← h27, ← h28]
    rfl
  · rw [if_neg short]
    rw [bitLen_le] at short
    simp only [Bool.true_eq_false, false_iff]
    omega

theorem deriveChainId_eq {b : ℕ} (hb : b ≤ 1) (h : 0 < c ∨ 2 * c + 36 ≤ -2 ^ 64) :
    deriveChainId (2 * c + 35 + b) = c := by
  unfold deriveChainId
  split_ifs with short zero
  · rw [bitLen_le] at short
    have h27 := uint64_eq_iff (n := 27) short (by norm_num)
    have h28 := uint64_eq_iff (n := 28) short (by norm_num)
    have : (2 * c + 35 + b).natAbs = 27 ∨ (2 * c + 35 + b).natAbs = 28 := zero.imp h27.1 h28.1
    omega
  · rw [bitLen_le] at short
    have wide : (35 : UInt64) ≤ uint64 (2 * c + 35 + b) := by
      rw [UInt64.le_iff_toNat_le, toNat_uint64 short]
      change 35 ≤ _
      omega
    rw [UInt64.toNat_div, UInt64.toNat_sub_of_le _ _ wide, toNat_uint64 short]
    change (((2 * c + 35 + b).natAbs - 35) / 2 : ℕ) = c
    omega
  · omega

theorem deriveChainId_nonneg (h : v.natAbs < 2 ^ 64) : 0 ≤ deriveChainId v := by
  unfold deriveChainId
  rw [if_pos (bitLen_le.2 h)]
  split_ifs
  · exact le_rfl
  · exact Int.natCast_nonneg _

section Recovery

variable {C : Crypto} {h : Hash} {sig : Bytes} {r s : ℕ} {v : UInt8}

theorem secp256k1N_lt : secp256k1N < 256 ^ 32 := by norm_num [secp256k1N]

theorem halfN_lt : secp256k1HalfN < secp256k1N := by norm_num [secp256k1HalfN, secp256k1N]

theorem validateSignatureValues_eq_false {r s : ℤ} {homestead : Bool} (h0 : v ≠ 0) (h1 : v ≠ 1) :
    validateSignatureValues v r s homestead = false := by
  unfold validateSignatureValues
  split_ifs
  · rfl
  · rfl
  · simp [h0, h1]

theorem toNat_v (hv : v = 0 ∨ v = 1) : v.toNat ≤ 1 := by
  rcases hv with rfl | rfl <;> decide

theorem recoveryId (hv : v = 0 ∨ v = 1) : (uint64 (27 + v.toNat) - 27).toUInt8 = v := by
  rcases hv with rfl | rfl <;> decide

theorem recoverPlain_signature (uncompressed : ∀ k, (C.fromECDSAPub k).head? = some 4) {k : C.Key}
    (hsig : Crypto.Signature sig r s v) (hrec : C.ecrecover h sig = .ok (C.fromECDSAPub k)) :
    recoverPlain C h r s (27 + v.toNat) true = .ok (C.pubkeyToAddress k) := by
  have small : ¬ 8 < bitLen (27 + v.toNat) := by
    have := toNat_v hsig.v_le
    rw [not_lt, bitLen_le]
    omega
  have valid : validateSignatureValues v r s true = true := by
    have hr := hsig.r_pos
    have hs := hsig.s_pos
    have hle := hsig.s_le
    unfold validateSignatureValues
    rw [if_neg (by omega), if_neg (by simpa using hle)]
    simp only [decide_eq_true_eq]
    exact ⟨hsig.r_lt, hle.trans_lt halfN_lt, hsig.v_le⟩
  have hr : r < 256 ^ 32 := by exact_mod_cast hsig.r_lt.trans secp256k1N_lt
  have hs : s < 256 ^ 32 := by exact_mod_cast (hsig.s_le.trans_lt halfN_lt).trans secp256k1N_lt
  unfold recoverPlain
  rw [if_neg small]
  simp only [recoveryId hsig.v_le, Int.natAbs_natCast]
  rw [valid, leftPad_minimal hr, leftPad_minimal hs, ← hsig.format, hrec]
  simp only [Bool.true_eq_false, if_false]
  rw [if_neg (not_not.2 (uncompressed k))]
  rfl

end Recovery

/-! ## Sign, then recover -/

/-- The `v` of a signature. -/
def valueV (c : ℤ) (b : ℕ) : ℤ := if c = 0 then 27 + b else 2 * c + 35 + b

/-- The transaction carries a signature of its hash for the chain by the key. -/
def SignedBy (cs : ChainSigner) (k : C.Key) (tx : Tx) : Prop :=
  ∃ sig r s v, Crypto.Signature sig r s v ∧
    C.ecrecover ((Signer.chain cs).hash C tx) sig = .ok (C.fromECDSAPub k) ∧
    tx.data.r = r ∧ tx.data.s = s ∧ tx.data.v = valueV cs.chainId v.toNat

section SignRecover

variable {C : Crypto} {cs : ChainSigner} {k : C.Key} {tx : Tx}

theorem plainValues_signature {sig : Bytes} {r s : ℕ} {v : UInt8} (hsig : Crypto.Signature sig r s v) :
    Signer.plainValues sig = .ok ((r : ℤ), (s : ℤ), ((v + 27).toNat : ℤ)) ∧ sig.getD 64 0 = v := by
  have hr : r < 256 ^ 32 := by exact_mod_cast hsig.r_lt.trans secp256k1N_lt
  have hs : s < 256 ^ 32 := by exact_mod_cast (hsig.s_le.trans_lt halfN_lt).trans secp256k1N_lt
  have len : sig.length = 65 := by simp [hsig.format]
  have takeR : sig.take 32 = fixed 32 r := by
    rw [hsig.format, append_assoc, take_left' (length_fixed 32 r)]
  have takeS : (sig.drop 32).take 32 = fixed 32 s := by
    rw [hsig.format, append_assoc, drop_left' (length_fixed 32 r),
      take_left' (length_fixed 32 s)]
  have last : sig.getD 64 0 = v := by
    rw [hsig.format, getD_append_right _ _ _ _ (by simp)]
    simp
  refine ⟨?_, last⟩
  unfold Signer.plainValues
  rw [if_neg (not_not.2 len), takeR, takeS, last, value_fixed, value_fixed, Nat.mod_eq_of_lt hr,
    Nat.mod_eq_of_lt hs]

theorem signatureValues_chain {sig : Bytes} {r s : ℕ} {v : UInt8} (hsig : Crypto.Signature sig r s v)
    (cs : ChainSigner) :
    (Signer.chain cs).signatureValues sig = .ok ((r : ℤ), (s : ℤ), valueV cs.chainId v.toNat) := by
  obtain ⟨hplain, last⟩ := plainValues_signature hsig
  have h27 : (v + 27).toNat = 27 + v.toNat := by rcases hsig.v_le with rfl | rfl <;> rfl
  have h35 : (v + 35).toNat = 35 + v.toNat := by rcases hsig.v_le with rfl | rfl <;> rfl
  rw [Signer.signatureValues, hplain, last, h27, h35, cs.mul_eq, valueV, Except.map]
  dsimp only
  by_cases zero : cs.chainId = 0
  · rw [if_neg (not_not.2 zero), if_pos zero]
    rfl
  · rw [if_pos zero, if_neg zero]
    push_cast
    ring_nf

theorem signOne_chain (law : C.Lawful) (cs : ChainSigner) (k : C.Key) (tx : Tx) :
    ∃ signed, signOne C (.chain cs) k tx = .ok signed ∧ SignedBy C cs k signed ∧
      signed.cachedFrom = none := by
  obtain ⟨sig, r, s, v, hsign, hsig, hrec⟩ := law.sign ((Signer.chain cs).hash C tx) k
  have hone : signOne C (.chain cs) k tx =
      .ok { data := { tx.data with r := r, s := s, v := valueV cs.chainId v.toNat } } := by
    rw [signOne, hsign]
    dsimp only
    rw [Tx.withSignature, signatureValues_chain hsig]
    rfl
  exact ⟨_, hone, ⟨sig, r, s, v, hsig, hrec, rfl, rfl, rfl⟩, rfl⟩

/-- The signatures hold the chain id: it is positive, or below every 64-bit number. -/
def Held (c : ℤ) : Prop := 0 < c ∨ 2 * c + 36 ≤ -2 ^ 64

theorem Held.valueV_eq (h : Held c) (b : ℕ) : valueV c b = 2 * c + 35 + b := by
  unfold Held at h
  exact if_neg (by omega)

theorem Held.protected (h : Held c) {b : ℕ} (hb : b ≤ 1) : isProtectedV (valueV c b) = true := by
  rw [← Bool.not_eq_false, isProtectedV_eq_false, h.valueV_eq]
  unfold Held at h
  omega

theorem sender_signed (law : C.Lawful) (held : Held cs.chainId) (h : SignedBy C cs k tx) :
    (Signer.chain cs).sender C tx = .ok (C.pubkeyToAddress k) := by
  obtain ⟨sig, r, s, v, hsig, hrec, hr, hs, hv⟩ := h
  have hb := toNat_v hsig.v_le
  have hplain : tx.data.v - cs.chainIdMul - 8 = 27 + v.toNat := by
    rw [hv, held.valueV_eq, cs.mul_eq]
    ring
  have hid : deriveChainId tx.data.v = cs.chainId := by
    rw [hv, held.valueV_eq]
    exact deriveChainId_eq hb held
  rw [Signer.sender, hid, hplain, hr, hs]
  have hp : isProtectedV tx.data.v = true := hv ▸ held.protected hb
  rw [hp, if_neg Bool.true_eq_false.mp, if_neg (not_not.2 rfl)]
  exact recoverPlain_signature law.uncompressed hsig hrec

theorem sender_of_other (held : Held cs.chainId) (h : SignedBy C cs k tx) {other : ChainSigner}
    (ne : other.chainId ≠ cs.chainId) : (Signer.chain other).sender C tx = .error .invalidChainId := by
  obtain ⟨sig, r, s, v, hsig, -, -, -, hv⟩ := h
  have hb := toNat_v hsig.v_le
  have hid : deriveChainId tx.data.v = cs.chainId := by
    rw [hv, held.valueV_eq]
    exact deriveChainId_eq hb held
  have hp : isProtectedV tx.data.v = true := hv ▸ held.protected hb
  rw [Signer.sender, hp, if_neg Bool.true_eq_false.mp, hid, if_pos ne.symm]

theorem senderPlain_of_signed (held : Held cs.chainId) (h : SignedBy C cs k tx) (signer : Signer)
    (homestead : Bool) : signer.senderPlain C homestead tx = .error .invalidSig := by
  obtain ⟨sig, r, s, v, hsig, -, -, -, hv⟩ := h
  have hb := toNat_v hsig.v_le
  rw [Signer.senderPlain, recoverPlain, hv]
  split_ifs with long
  · rfl
  -- a short value of a held chain id is at least 37, so that no recovery id is left of it
  rw [not_lt, bitLen_le, held.valueV_eq] at long
  have large : 37 ≤ (2 * cs.chainId + 35 + v.toNat).natAbs := by
    unfold Held at held
    omega
  have low : (uint64 (valueV cs.chainId v.toNat) - 27).toUInt8.toNat =
      (2 * cs.chainId + 35 + v.toNat).natAbs - 27 := by
    have h64 := toNat_uint64 (long.trans (by norm_num))
    have le : (27 : UInt64) ≤ uint64 (2 * cs.chainId + 35 + v.toNat) := by
      rw [UInt64.le_iff_toNat_le, h64]
      change 27 ≤ _
      omega
    rw [held.valueV_eq, UInt64.toNat_toUInt8, UInt64.toNat_sub_of_le _ _ le, h64]
    change (_ - 27) % 256 = _
    omega
  have invalid : validateSignatureValues (uint64 (valueV cs.chainId v.toNat) - 27).toUInt8 tx.data.r
    tx.data.s
      homestead = false := by
    apply validateSignatureValues_eq_false <;> intro h0 <;> rw [h0] at low
    · change 0 = _ at low
      omega
    · change 1 = _ at low
      omega
  rw [if_pos invalid]

/-- The signed transaction, after any calls of `Sender` on it. -/
structure Settled (C : Crypto) (cs : ChainSigner) (k : C.Key) (tx : Transaction) : Prop where
  main : SignedBy C cs k tx.toTx
  companion : ∀ d ∈ tx.dappTx, SignedBy C cs k d
  cached : ∀ p ∈ tx.cachedFrom, p.1 = .chain cs ∧ p.2 = C.pubkeyToAddress k

theorem signTx_chain (law : C.Lawful) (cs : ChainSigner) (k : C.Key) (tx : Transaction) :
    ∃ signed, signTx C tx (.chain cs) k = .ok signed ∧ signed.cachedFrom = none ∧
      Settled C cs k signed := by
  obtain ⟨main, hmain, signed, fresh⟩ := signOne_chain law cs k tx.toTx
  have cached : ∀ p ∈ main.cachedFrom, p.1 = .chain cs ∧ p.2 = C.pubkeyToAddress k := by
    rw [fresh]
    exact nofun
  unfold signTx
  rw [hmain]
  cases tx.dappTx with
  | none =>
    exact ⟨{ toTx := main }, rfl, fresh,
      ⟨signed, fun d hd => absurd hd (Option.not_mem_none d), cached⟩⟩
  | some d =>
    obtain ⟨companion, hd, signed', -⟩ := signOne_chain law cs k d
    dsimp only
    rw [hd]
    refine ⟨{ toTx := main, dappTx := some companion }, rfl, fresh, ⟨signed, ?_, cached⟩⟩
    intro d' hd'
    cases hd'
    exact signed'

theorem Settled.cachedSender_eq (h : Settled C cs k t) (signer : Signer) :
    t.cachedSender signer = none ∨
      (Signer.chain cs).equal signer = true ∧ t.cachedSender signer = some (C.pubkeyToAddress k) := by
  unfold Tx.cachedSender
  cases hc : t.cachedFrom with
  | none => exact .inl rfl
  | some p =>
    obtain ⟨s, a⟩ := p
    obtain ⟨rfl, rfl⟩ := h.cached (s, a) hc
    dsimp only
    split_ifs with eq
    · exact .inr ⟨eq, rfl⟩
    · exact .inl rfl

theorem equal_chain : (Signer.chain cs).equal signer = true ↔
    ∃ other : ChainSigner, signer = .chain other ∧ other.chainId = cs.chainId := by
  cases signer <;> simp [Signer.equal]

theorem ChainSigner.eq_of_chainId {s t : ChainSigner} (h : s.chainId = t.chainId) : s = t := by
  obtain ⟨c, m, hm⟩ := s
  obtain ⟨c', m', hm'⟩ := t
  subst hm hm'
  cases h
  rfl

theorem Settled.sender (law : C.Lawful) (held : Held cs.chainId) (h : Settled C cs k t)
    (signer : Signer) : Settled C cs k (Types.sender C signer t).2 ∧
      (signer = .chain cs ∧ (Types.sender C signer t).1 = .ok (C.pubkeyToAddress k) ∨
        signer ≠ .chain cs ∧ ∃ e, (Types.sender C signer t).1 = .error e) := by
  have own : ∀ {s : Signer}, (Signer.chain cs).equal s = true → s = .chain cs := by
    intro s heq
    obtain ⟨other, rfl, hid⟩ := equal_chain.1 heq
    rw [ChainSigner.eq_of_chainId hid]
  unfold Types.sender
  rcases h.cachedSender_eq signer with hc | ⟨heq, hc⟩ <;> rw [hc] <;> dsimp only
  · by_cases hs : signer = .chain cs
    · subst hs
      rw [sender_signed law held h.main]
      cases hd : t.dappTx with
      | none =>
        refine ⟨⟨h.main, fun d hd => absurd hd (Option.not_mem_none d), ?_⟩, .inl ⟨rfl, rfl⟩⟩
        rintro p hp
        cases hp
        exact ⟨rfl, rfl⟩
      | some d =>
        dsimp only
        rw [sender_signed law held (h.companion d hd)]
        refine ⟨⟨h.main, ?_, ?_⟩, .inl ⟨rfl, rfl⟩⟩
        · rintro d' hd'
          cases hd'
          exact h.companion d hd
        · rintro p hp
          cases hp
          exact ⟨rfl, rfl⟩
    · obtain ⟨e, he⟩ : ∃ e, signer.sender C t.toTx = .error e := by
        cases signer with
        | chain other =>
          refine ⟨_, sender_of_other held h.main fun hid => hs ?_⟩
          rw [ChainSigner.eq_of_chainId hid]
        | default => exact ⟨_, senderPlain_of_signed held h.main .default true⟩
        | plain => exact ⟨_, senderPlain_of_signed held h.main .plain false⟩
      rw [he]
      exact ⟨h, .inr ⟨hs, e, rfl⟩⟩
  · exact ⟨h, .inl ⟨own heq, rfl⟩⟩

end SignRecover

/-- `Sender`, with the transaction it leaves. -/
def callSender (tx : Transaction) (signer : Signer) : Option Transaction :=
  some (sender C signer tx).2

/-- The signer of the chain gets the address of the key, and the signer of any other chain an
error. -/
def Recovers (c : ℤ) (k : C.Key) (tx : Transaction) : Prop :=
  (sender C (.chain (newChainSigner (some c))) tx).1 = .ok (C.pubkeyToAddress k) ∧
    ∀ c', c' ≠ c → ∃ e, (sender C (.chain (newChainSigner (some c'))) tx).1 = .error e

theorem Settled.recovers {C : Crypto} (law : C.Lawful) (held : Held c) {k : C.Key}
    (h : Settled C (newChainSigner (some c)) k tx) : Recovers C c k tx := by
  constructor
  · rcases (h.sender law held (.chain (newChainSigner (some c)))).2 with ⟨-, hs⟩ | ⟨ne, -⟩
    · exact hs
    · exact absurd rfl ne
  · intro c' ne
    rcases (h.sender law held (.chain (newChainSigner (some c')))).2 with ⟨heq, -⟩ | ⟨-, he⟩
    · cases heq
      exact absurd rfl ne
    · exact he

theorem sender_eq_ok {C : Crypto} (fresh : tx.cachedFrom = none) : (sender C signer tx).1 = .ok addr ↔
      signer.sender C tx.toTx = .ok addr ∧ ∀ d ∈ tx.dappTx, ∃ a, signer.sender C d = .ok a := by
  unfold sender Tx.cachedSender
  rw [fresh]
  cases signer.sender C tx.toTx with
  | error e => simp
  | ok a =>
    cases tx.dappTx with
    | none => simp
    | some d =>
      cases hd : signer.sender C d with
      | error e | ok a' => simp [hd]

theorem sender_of_not_held {C : Crypto} {cs other : ChainSigner} {k : C.Key} {tx : Tx}
    (held : ¬ Held cs.chainId) (h : SignedBy C cs k tx)
    (hs : (Signer.chain cs).sender C tx = .ok addr) :
    (Signer.chain other).sender C tx = .ok addr := by
  obtain ⟨sig, r, s, v, hsig, -, -, -, hv⟩ := h
  have hb := toNat_v hsig.v_le
  by_cases hp : isProtectedV tx.data.v = false
  · rw [Signer.sender, if_pos hp] at hs ⊢
    exact hs
  · -- the value has at most 64 bits, and the chain id in it is not negative
    have hc : cs.chainId ≠ 0 := by
      intro zero
      rw [isProtectedV_eq_false, hv, valueV, if_pos zero] at hp
      omega
    rw [valueV, if_neg hc] at hv
    have short : tx.data.v.natAbs < 2 ^ 64 := by
      unfold Held at held
      omega
    have hid : deriveChainId tx.data.v ≠ cs.chainId := by
      have := deriveChainId_nonneg short
      unfold Held at held
      omega
    rw [Signer.sender, if_neg hp, if_pos hid] at hs
    cases hs

/-- The signer of the chain recovers the key and all others fail, if and only if the chain id is
positive or below all 64-bit values. -/
theorem sign_then_recover_iff {C : Crypto} (law : C.Lawful) (c : ℤ) (k : C.Key) (tx : Transaction) :
    (∃ signed, signTx C tx (.chain (newChainSigner (some c))) k = .ok signed ∧
      ∀ calls, Runs.Always (callSender C) (Recovers C c k) signed calls) ↔
      0 < c ∨ 2 * c + 36 ≤ -2 ^ 64 := by
  obtain ⟨signed, hsign, fresh, settled⟩ := signTx_chain law (newChainSigner (some c)) k tx
  constructor
  · rintro ⟨signed', hsign', always⟩
    obtain rfl : signed = signed' := by
      rw [hsign] at hsign'
      cases hsign'
      rfl
    obtain ⟨own, others⟩ : Recovers C c k signed := always []
    by_contra held
    change ¬ Held (newChainSigner (some c)).chainId at held
    obtain ⟨main, companion⟩ := (sender_eq_ok fresh).1 own
    obtain ⟨e, he⟩ := others (c + 1) (by omega)
    have recovered : (sender C (.chain (newChainSigner (some (c + 1)))) signed).1 =
        .ok (C.pubkeyToAddress k) := by
      refine (sender_eq_ok fresh).2 ⟨sender_of_not_held held settled.main main, fun d hd => ?_⟩
      obtain ⟨a, ha⟩ := companion d hd
      exact ⟨a, sender_of_not_held held (settled.companion d hd) ha⟩
    rw [he] at recovered
    cases recovered
  · intro held
    change Held (newChainSigner (some c)).chainId at held
    refine ⟨signed, hsign, fun calls => ?_⟩
    apply Runs.always_of_invariant (I := Settled C (newChainSigner (some c)) k) ?_ ?_ settled
    · intro t signer t' ht step
      cases step
      exact (ht.sender law held signer).1
    · intro t ht
      exact ht.recovers law held

/-- A scheme with 256 keys: the signature is the sum of the hash and the key. -/
def toyCrypto : Crypto where
  Key := UInt8
  keccak b := BitVec.ofNat 256 (value b + b.length + 1)
  sign h k := .ok (fixed 32 (1 + (UInt8.ofNat h.toNat + k).toNat) ++ fixed 32 1 ++ [0])
  ecrecover h sig := .ok [4, UInt8.ofNat (value (sig.take 32) - 1) - UInt8.ofNat h.toNat]
  fromECDSAPub k := [4, k]

theorem toyCrypto_lawful : toyCrypto.Lawful where
  uncompressed _ := rfl
  sign := fun h (k : UInt8) => by
    have hlt := (UInt8.ofNat h.toNat + k).toNat_lt
    refine ⟨_, 1 + (UInt8.ofNat h.toNat + k).toNat, 1, 0, rfl,
      ⟨rfl, by omega, ?_, by norm_num, ?_, .inl rfl⟩, ?_⟩
    · rw [secp256k1N]
      omega
    · norm_num [secp256k1HalfN, secp256k1N]
    · change Except.ok _ = Except.ok _
      rw [append_assoc, take_left' (length_fixed 32 _), value_fixed,
        Nat.mod_eq_of_lt (by norm_num; omega), Nat.add_sub_cancel_left, UInt8.ofNat_toNat]
      simp [toyCrypto]

/-- A transfer of nothing. -/
def plainTransfer : Transaction := NewTransaction toyCrypto.keccak 0 0 none 0 none []

/-- For chain id zero the sender is recovered over another hash than was signed, and by every
chain. -/
theorem chain_zero_recovers_other : toyCrypto.pubkeyToAddress (5 : UInt8) = 7 ∧
      (signTx toyCrypto plainTransfer (.chain (newChainSigner (some 0))) (5 : UInt8)).toOption.map
        (fun signed =>
        ((sender toyCrypto (.chain (newChainSigner (some 0))) signed).1.toOption,
          (sender toyCrypto (.chain (newChainSigner (some 1))) signed).1.toOption)) = some (some 10,
            some 10) := by
  decide +kernel

theorem sign_then_recover_one : toyCrypto.Lawful ∧ ∃ signed,
      signTx toyCrypto plainTransfer (.chain (newChainSigner (some 1))) (5 : UInt8) = .ok signed ∧
      ∀ calls, Runs.Always (callSender toyCrypto) (Recovers toyCrypto 1 (5 : UInt8)) signed calls :=
  ⟨toyCrypto_lawful, (sign_then_recover_iff toyCrypto_lawful 1 (5 : UInt8) plainTransfer).2
    (.inl one_pos)⟩

end JuChain.Types
