import JuChain.Pool.TxList
import JuChain.Rlp.Typed
import JuChain.Types.Words

/-!
# Transactions

`core/types/transaction.go` and the JSON decoding of `gen_tx_json.go`.  The constructors and
decoders never leave a big integer nil; a nil pointer to an address or a hash is `none`.  Companions
have no companions, so the pointer `dappTx` leads to a `Tx`, a transaction without one.  `rlpHash`
hashes what `rlp.Encode` wrote, which is nothing when a big integer is negative.
-/

namespace JuChain.Types

open BigEndian RLP JuChain.Rlp
open JuChain.Pool (Ref)

variable (keccak : Bytes → Hash)

def bitLen (i : ℤ) : ℕ := i.natAbs.size

/-- `big.Int.Uint64`: the low 64 bits of the absolute value. -/
def uint64 (i : ℤ) : UInt64 := UInt64.ofNat i.natAbs

/-! ## Data -/

structure TxData where
  dappId : Option (Ref 160)
  refHashId : Option (Ref 256)
  accountNonce : UInt64
  price : ℤ
  gasLimit : UInt64
  recipient : Option (Ref 160)
  amount : ℤ
  payload : Bytes
  v : ℤ
  r : ℤ
  s : ℤ
  deriving DecidableEq

/-- The value behind a pointer. -/
def deref {w : ℕ} (p : Option (Ref w)) : Option (BitVec w) := p.map Ref.value

/-- The encoding of the data. -/
def TxData.writer (d : TxData) : Writer :=
  writeList [
    writeArrayPtr ((deref d.dappId).map addressBytes),
    writeArrayPtr ((deref d.refHashId).map hashBytes),
    writeUint d.accountNonce,
    writeBigInt d.price,
    writeUint d.gasLimit,
    writeArrayPtr ((deref d.recipient).map addressBytes),
    writeBigInt d.amount,
    writeBytes d.payload,
    writeBigInt d.v,
    writeBigInt d.r,
    writeBigInt d.s]

def rlpHash (f : Writer) : Hash :=
  match encodeWith f with
  | .ok b => keccak b
  | .error _ => keccak []

structure ChainSigner where
  chainId : ℤ
  chainIdMul : ℤ
  mul_eq : chainIdMul = chainId * 2
  deriving DecidableEq

/-- The implementations of `Signer`; `plain` is the unexported `signer`. -/
inductive Signer where
  | chain (s : ChainSigner)
  | default
  | plain
  deriving DecidableEq

/-- `Transaction` without a companion: the data and the three caches. -/
structure Tx where
  data : TxData
  cachedHash : Option Hash := none
  cachedSize : Option ℕ := none
  cachedFrom : Option (Signer × Address) := none
  deriving DecidableEq

/-- `Transaction`, with its companion. -/
structure Transaction extends Tx where
  dappTx : Option Tx := none
  deriving DecidableEq

namespace Tx

/-- `Hash`: the cached value, or the hash of the data, which is cached. -/
def hash (tx : Tx) : Hash × Tx :=
  match tx.cachedHash with
  | some h => (h, tx)
  | none =>
    (rlpHash keccak tx.data.writer, { tx with cachedHash := some (rlpHash keccak tx.data.writer) })

/-- `To`.  The shared pointer to the zero address counts as nil, another one does not. -/
def recipient (tx : Tx) : Option Address :=
  if tx.data.recipient = none ∨ tx.data.recipient = some .empty then none else deref tx.data.recipient

def dappID (tx : Tx) : Option Address := deref tx.data.dappId

def refHashId (tx : Tx) : Option Hash := deref tx.data.refHashId

def encodeRLP (tx : Tx) : Except Err Bytes := encodeWith tx.data.writer

end Tx

/-! ## Constructors -/

def newDAppTransaction (dappId : Option (Ref 160)) (refHashId : Option (Ref 256))
    (nonce gasLimit : UInt64) (gasPrice : Option ℤ) (data : Bytes) : Tx where
  data :=
    { dappId := dappId, refHashId := refHashId, accountNonce := nonce, price := gasPrice.getD 0,
      gasLimit := gasLimit, recipient := none, amount := 0, payload := data, v := 0, r := 0, s := 0 }

/-- `dappId != nil && !bytes.Equal(dappId.Bytes(), EmptyDAppIdHash.Bytes())` -/
def NamesDApp (dappId : Option (Ref 160)) : Prop := (deref dappId).getD 0 ≠ 0

instance decidableNamesDApp (dappId : Option (Ref 160)) : Decidable (NamesDApp dappId) :=
  inferInstanceAs (Decidable (_ ≠ _))

def newTransaction (dappId : Option (Ref 160)) (nonce : UInt64)
    (recipient : Option (Ref 160)) (amount : Option ℤ) (gasLimit : UInt64) (gasPrice : Option ℤ)
    (data : Bytes) : Transaction :=
  let d : TxData :=
    { dappId := some .empty, refHashId := some .empty, accountNonce := nonce, price := gasPrice.getD 0,
      gasLimit := gasLimit, recipient := recipient, amount := amount.getD 0, payload := data,
      v := 0, r := 0, s := 0 }
  if NamesDApp dappId then
    -- the hash of the companion is cached here, before it is given the hash of the main transaction
    let dapp := (newDAppTransaction dappId (some .empty) nonce gasLimit gasPrice data).hash keccak
    let tx := Tx.hash keccak { data := { d with dappId := dappId, payload := hashBytes dapp.1 } }
    { toTx := tx.2
      dappTx := some { dapp.2 with data := { dapp.2.data with refHashId := some (.fresh tx.1) } } }
  else { data := d }

section Constructors

variable (keccak : Bytes → Hash)

def NewTransaction (nonce : UInt64) (recipient : Address) (amount : Option ℤ) (gasLimit : UInt64)
    (gasPrice : Option ℤ) (data : Bytes) : Transaction :=
  newTransaction keccak (some .empty) nonce (some (.fresh recipient)) amount gasLimit gasPrice data

def NewDAppTransaction (dappId : Option (Ref 160)) (nonce gasLimit : UInt64) (gasPrice : Option ℤ)
    (data : Bytes) : Transaction :=
  newTransaction keccak dappId nonce (some .empty) (some 0) gasLimit gasPrice data

def NewContractCreation (nonce : UInt64) (amount : Option ℤ) (gasLimit : UInt64) (gasPrice : Option ℤ)
    (data : Bytes) : Transaction :=
  newTransaction keccak (some .empty) nonce none amount gasLimit gasPrice data

def NewDAppContractCreation (dappId : Option (Ref 160)) (nonce : UInt64) (amount : Option ℤ)
    (gasLimit : UInt64) (gasPrice : Option ℤ) (data : Bytes) : Transaction :=
  newTransaction keccak dappId nonce none amount gasLimit gasPrice data

end Constructors

/-! ## Items -/

section Items

variable {keccak : Bytes → Hash} {f : Writer}

/-- The item of a pointer. -/
def pointerItem (b : Option Bytes) : Item := .str (b.getD [])

/-- The item of a number. -/
def numberItem (n : ℕ) : Item := .str (minimal n)

/-- The items of the data. -/
def TxData.items (d : TxData) : List Item := [
  pointerItem ((deref d.dappId).map addressBytes),
  pointerItem ((deref d.refHashId).map hashBytes),
  numberItem d.accountNonce.toNat,
  numberItem d.price.natAbs,
  numberItem d.gasLimit.toNat,
  pointerItem ((deref d.recipient).map addressBytes),
  numberItem d.amount.natAbs,
  .str d.payload,
  numberItem d.v.natAbs,
  numberItem d.r.natAbs,
  numberItem d.s.natAbs]

/-- No integer is negative, so that there is an encoding. -/
def TxData.Encodable (d : TxData) : Prop := 0 ≤ d.price ∧ 0 ≤ d.amount ∧ 0 ≤ d.v ∧ 0 ≤ d.r ∧ 0 ≤ d.s

instance decidableEncodable (d : TxData) : Decidable d.Encodable := inferInstanceAs (Decidable (_ ∧ _))

theorem TxData.writes_writer {d : TxData} (h : d.Encodable) : Writes d.writer (.list d.items) := by
  obtain ⟨hprice, hamount, hv, hr, hs⟩ := h
  apply writes_list
  simp [TxData.items, pointerItem, numberItem, writes_bigInt, hprice, hamount, hv, hr, hs]

theorem TxData.fails_writer {d : TxData} (h : ¬ d.Encodable) : Fails d.writer := by
  apply fails_list
  · simp
  · obtain ⟨i, hi, neg⟩ : ∃ i ∈ [d.price, d.amount, d.v, d.r, d.s], i < 0 := by
      by_contra none
      push Not at none
      simp only [List.mem_cons, List.not_mem_nil, or_false, forall_eq_or_imp, forall_eq] at none
      exact h none
    refine ⟨writeBigInt i, ?_, fails_bigInt neg⟩
    simp only [List.mem_cons, List.not_mem_nil, or_false] at hi
    rcases hi with rfl | rfl | rfl | rfl | rfl <;> simp

theorem rlpHash_of_writes {x : Item} (h : Writes f x)
    (fits : x.Fits (2 ^ 64)) : rlpHash keccak f = keccak x.encode := by
  rw [rlpHash, encodeWith_of_writes h fits]

theorem rlpHash_of_fails (h : Fails f) : rlpHash keccak f = keccak [] := by
  rw [rlpHash, encodeWith_of_fails h]

theorem encodeWith_of_rlpHash {g : Writer} {b₀ : Bytes} (enc : encodeWith f = .ok b₀) (ne : b₀ ≠ [])
    (unique : ∀ b, keccak b = keccak b₀ → b = b₀) (h : rlpHash keccak g = rlpHash keccak f) :
    encodeWith g = encodeWith f := by
  unfold rlpHash at h
  rw [enc] at h ⊢
  cases henc : encodeWith g with
  | ok b =>
    rw [henc] at h
    rw [unique b h]
  | error e =>
    rw [henc] at h
    exact absurd (unique [] h).symm ne

theorem numberItem_inj {m n : ℕ} : numberItem m = numberItem n ↔ m = n := by
  unfold numberItem
  rw [Item.str.injEq]
  exact minimal_injective.eq_iff

theorem pointerItem_inj {α : Type} {f : α → Bytes} (hf : Function.Injective f) (pos : ∀ a, f a ≠ [])
    {p q : Option α} : pointerItem (p.map f) = pointerItem (q.map f) ↔ p = q := by
  unfold pointerItem
  cases p with
  | none =>
    cases q with
    | none => simp
    | some b => simpa [eq_comm] using pos b
  | some a =>
    cases q with
    | none => simpa using pos a
    | some b => simpa using hf.eq_iff

theorem addressBytes_ne_nil (a : Address) : addressBytes a ≠ [] :=
  List.ne_nil_of_length_pos (by rw [length_addressBytes]; norm_num)

theorem hashBytes_ne_nil (h : Hash) : hashBytes h ≠ [] :=
  List.ne_nil_of_length_pos (by rw [length_hashBytes]; norm_num)

end Items

end JuChain.Types
