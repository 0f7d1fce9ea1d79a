import JuChain.Types.Signing

/-!
# What a signature covers

The signing hash covers neither the DApp of a transaction nor its reference to another transaction:
both can be replaced in a signed transaction, and the sender stays the same.  Of the hash function
it is assumed that the two signing hashes of the transaction in question have no second preimage
(`Ideal`). Whether the curve recovers one sender from two hashes is left open (`Forged`).
-/

namespace JuChain.Types

open BigEndian RLP JuChain.Rlp List

/-- The items that a signature covers. -/
def TxData.signedItems (d : TxData) : List Item := [
  numberItem d.accountNonce.toNat,
  numberItem d.price.natAbs,
  numberItem d.gasLimit.toNat,
  pointerItem ((deref d.recipient).map addressBytes),
  numberItem d.amount.natAbs,
  .str d.payload]

namespace Signer

/-- The items that the signer hashes. -/
def items : Signer → TxData → List Item
  | .chain s, d => d.signedItems ++ [numberItem s.chainId.natAbs, numberItem 0, numberItem 0]
  | .default, d => d.signedItems
  | .plain, d => d.signedItems

/-- No integer that is hashed for signing is negative. -/
def Signs : Signer → TxData → Prop
  | .chain s, d => 0 ≤ s.chainId ∧ 0 ≤ d.price ∧ 0 ≤ d.amount
  | .default, d => 0 ≤ d.price ∧ 0 ≤ d.amount
  | .plain, d => 0 ≤ d.price ∧ 0 ≤ d.amount

/-- What is hashed has a length of 64 bits, as everything that fits in memory. -/
def Sized (s : Signer) (d : TxData) : Prop := s.Signs d → (Item.list (s.items d)).Fits (2 ^ 64)

end Signer

/-- The transactions agree in what is signed. -/
structure SameSigned (tx tx' : Tx) : Prop where
  nonce : tx.data.accountNonce = tx'.data.accountNonce
  price : tx.data.price = tx'.data.price
  gasLimit : tx.data.gasLimit = tx'.data.gasLimit
  recipient : deref tx.data.recipient = deref tx'.data.recipient
  amount : tx.data.amount = tx'.data.amount
  payload : tx.data.payload = tx'.data.payload

/-- Nothing else has the signing hash of the transaction. -/
def NoCollision (C : Crypto) (s : Signer) (tx : Tx) : Prop :=
  ∀ tx' : Tx, s.hash C tx' = s.hash C tx →
    encodeWith (s.writer tx'.data) = encodeWith (s.writer tx.data)

section Binding

variable {C : Crypto} {s : Signer} {tx tx' : Tx} {d d' : TxData} {cs : ChainSigner}

theorem forall₂_signed (hprice : 0 ≤ d.price) (hamount : 0 ≤ d.amount) :
    List.Forall₂ Writes d.signed d.signedItems := by
  simp [TxData.signed, TxData.signedItems, pointerItem, numberItem, writes_bigInt, hprice, hamount]

theorem Signer.writes_writer (h : s.Signs d) : Writes (s.writer d) (.list (s.items d)) := by
  cases s with
  | chain cs =>
    obtain ⟨hc, hprice, hamount⟩ := h
    apply writes_list
    exact rel_append (forall₂_signed hprice hamount)
      (.cons (writes_bigInt hc) (.cons (writes_uint 0) (.cons (writes_uint 0) .nil)))
  | default | plain => exact writes_list (forall₂_signed h.1 h.2)

theorem settles_signed (d : TxData) : ∀ f ∈ d.signed, Settles f := by simp [TxData.signed]

theorem exists_fails_signed (h : ¬ (0 ≤ d.price ∧ 0 ≤ d.amount)) : ∃ f ∈ d.signed, Fails f := by
  rcases lt_or_ge d.price 0 with neg | hprice
  · exact ⟨_, by simp [TxData.signed], fails_bigInt neg⟩
  rcases lt_or_ge d.amount 0 with neg | hamount
  · exact ⟨writeBigInt d.amount, by simp [TxData.signed], fails_bigInt neg⟩
  · exact absurd ⟨hprice, hamount⟩ h

theorem Signer.fails_writer (h : ¬ s.Signs d) : Fails (s.writer d) := by
  cases s with
  | chain cs =>
    apply fails_list (by simp [TxData.signed])
    rcases lt_or_ge cs.chainId 0 with neg | hc
    · exact ⟨_, by simp, fails_bigInt neg⟩
    · obtain ⟨f, hf, fail⟩ := exists_fails_signed fun hd => h ⟨hc, hd⟩
      exact ⟨f, mem_append_left _ hf, fail⟩
  | default | plain => exact fails_list (settles_signed d) (exists_fails_signed h)

theorem sameSigned_of_items (h : s.Signs tx.data) (h' : s.Signs tx'.data)
    (eq : tx.data.signedItems = tx'.data.signedItems) : SameSigned tx tx' := by
  have nonneg : ∀ {t : Tx}, s.Signs t.data → 0 ≤ t.data.price ∧ 0 ≤ t.data.amount := by
    intro t ht
    cases s with
    | chain cs => exact ht.2
    | default | plain => exact ht
  simp only [TxData.signedItems, cons.injEq, and_true, numberItem_inj, Item.str.injEq,
    pointerItem_inj addressBytes_injective addressBytes_ne_nil] at eq
  obtain ⟨hnonce, hprice, hgas, hrecipient, hamount, hpayload⟩ := eq
  refine ⟨UInt64.toNat_inj.1 hnonce, ?_, UInt64.toNat_inj.1 hgas, hrecipient, ?_, hpayload⟩
  · exact (Int.natAbs_inj_of_nonneg_of_nonneg (nonneg h).1 (nonneg h').1).1 hprice
  · exact (Int.natAbs_inj_of_nonneg_of_nonneg (nonneg h).2 (nonneg h').2).1 hamount

theorem Signer.Sized.default (hc : 0 ≤ cs.chainId) (h : (Signer.chain cs).Sized d) :
    Signer.default.Sized d := by
  intro hs
  obtain ⟨short, fits⟩ := h ⟨hc, hs⟩
  change (encodeAll (d.signedItems ++ _)).length < _ at short
  rw [encodeAll_append, length_append] at short
  refine ⟨Nat.lt_of_le_of_lt (Nat.le_add_right _ _) short, allFit_iff.2 fun x hx => ?_⟩
  exact allFit_iff.1 fits x (mem_append_left _ hx)

end Binding

end JuChain.Types
