import JuChain.Types.Signing

/-!
# The wire form of transactions

`Transaction.DecodeRLP`, and `UnmarshalJSON` from the point where `encoding/json` has filled the
fields. `DAppId` and `RefHashId` need 20 and 32 bytes, although nil pointers are written as empty
strings.  What is decoded points to new values, never to the shared zero address that `To` takes for
nil.
-/

namespace JuChain.Types

open BigEndian RLP JuChain.Rlp JuChain.Rlp.Stream List Option
open JuChain.Pool (Ref)

/-- The fields of `txdata` in the order of their decoding. -/
abbrev Fields := Bytes × Bytes × UInt64 × ℤ × UInt64 × Option Bytes × ℤ × Bytes × ℤ × ℤ × ℤ

/-- A field of `txdata`. -/
def txField {α : Type} (name : String) (dec : Stream → Res α) : Stream → Res α :=
  decodeField "types.txdata" name dec

/-- The fields in order. -/
def decodeFields : Stream → Res Fields :=
  decodePair (txField "DAppId" (decodeByteArray "common.Address" 20)) <|
  decodePair (txField "RefHashId" (decodeByteArray "common.Hash" 32)) <|
  decodePair (txField "AccountNonce" decodeUint) <|
  decodePair (txField "Price" decodeBigInt) <|
  decodePair (txField "GasLimit" decodeUint) <|
  decodePair (txField "Recipient" (decodeOptionalPtr (decodeByteArray "common.Address" 20))) <|
  decodePair (txField "Amount" decodeBigInt) <|
  decodePair (txField "Payload" decodeByteSlice) <|
  decodePair (txField "V" decodeBigInt) <|
  decodePair (txField "R" decodeBigInt) (txField "S" decodeBigInt)

/-- The decoded fields, with new pointers. -/
def TxData.ofFields : Fields → TxData
  | (dapp, ref, nonce, price, gas, recipient, amount, payload, v, r, s) =>
    { dappId := some (.fresh (bytesToAddress dapp)), refHashId := some (.fresh (bytesToHash ref)),
      accountNonce := nonce, price := price, gasLimit := gas,
      recipient := recipient.map fun b => .fresh (bytesToAddress b), amount := amount, payload :=
        payload,
      v := v, r := r, s := s }

/-- The decoder of `txdata`. -/
def decodeTxData (s : Stream) : Res TxData :=
  (decodeStruct "types.txdata" decodeFields s).andThen fun p s => .ok (.ofFields p) s

def listSize (contentSize : ℕ) : ℕ := headsize contentSize + contentSize

/-- The part of `DecodeRLP` behind the call of `Kind`. -/
def decodeSized (size : ℕ) (s : Stream) : Res Tx :=
  ((decodeTxData s).mapError (addTarget "types.txdata")).andThen fun d s =>
    .ok { data := d, cachedSize := some (listSize size) } s

/-- `DecodeRLP`: an error of `Kind` comes again when the value is decoded. -/
def Tx.decodeRLP (s : Stream) : Res Tx :=
  match s.kindOf with
  | .ok (_, size) s => decodeSized size s
  | .error _ s => decodeSized 0 s

/-- `DecodeBytes` into a transaction. -/
def Tx.decodeBytes (b : Bytes) : Except Err Tx :=
  decodeBytesWith (fun s => (Tx.decodeRLP s).mapError (addTarget "types.Transaction")) b

/-! ## JSON -/

/-- The fields that `encoding/json` found; a `hexutil.Big` has at most 256 bits. -/
structure JsonTxData where
  dappId : Option Address
  refHashId : Option Hash
  accountNonce : Option UInt64
  price : Option (BitVec 256)
  gasLimit : Option UInt64
  recipient : Option Address
  amount : Option (BitVec 256)
  payload : Option Bytes
  v : Option (BitVec 256)
  r : Option (BitVec 256)
  s : Option (BitVec 256)

/-- The errors of `UnmarshalJSON`. -/
inductive JsonErr where
  | missing (field : String)
  | invalidSig
  deriving DecidableEq

/-- A field that has to be there. -/
def required {α : Type} (field : String) : Option α → Except JsonErr α
  | none => .error (.missing field)
  | some a => .ok a

/-- `txdata.UnmarshalJSON`. -/
def TxData.unmarshalJSON (dec : JsonTxData) : Except JsonErr TxData := do
  let nonce ← required "nonce" dec.accountNonce
  let price ← required "gasPrice" dec.price
  let gas ← required "gas" dec.gasLimit
  let amount ← required "value" dec.amount
  let payload ← required "input" dec.payload
  let v ← required "v" dec.v
  let r ← required "r" dec.r
  let s ← required "s" dec.s
  return {
    dappId := dec.dappId.map .fresh, refHashId := dec.refHashId.map .fresh, accountNonce := nonce,
    price := price.toNat, gasLimit := gas, recipient := dec.recipient.map .fresh, amount :=
      amount.toNat,
    payload := payload, v := v.toNat, r := r.toNat, s := s.toNat }

/-- The recovery id in `V`, as `UnmarshalJSON` computes it. -/
def jsonRecoveryId (v : ℤ) : UInt8 :=
  if isProtectedV v then (uint64 v - 35 - 2 * uint64 (deriveChainId v)).toUInt8
    else (uint64 v - 27).toUInt8

/-- `Transaction.UnmarshalJSON`. -/
def unmarshalJSON (dec : JsonTxData) : Except JsonErr Transaction :=
  (TxData.unmarshalJSON dec).bind fun d =>
    if validateSignatureValues (jsonRecoveryId d.v) d.r d.s false = false then .error .invalidSig
    else .ok { data := d }

/-! ## What is accepted -/

variable {s' s : Stream} {b cs : Bytes} {tx : Tx} {o : Option Bytes} {typ : String}

theorem kindOf_error_again {e : Err} (hk : s.kind = none) (h : s.kindOf = .error e s') :
    ∃ e' t, s'.kindOf = .error e' t := by
  by_cases hend : s.AtEnd
  · have heol := (kindOf_eq_eol hk).2 ⟨hend, rfl⟩
    rw [heol] at h
    cases h
    exact ⟨.eol, _, (kindOf_eq_eol (s := { s with kinderr := none }) hk).2 ⟨hend, rfl⟩⟩
  · rw [kindOf_of_none hk] at h
    unfold readHeader at h
    rw [if_neg hend] at h
    rcases hr : readKind { s with kinderr := none } with ⟨⟨k, size, _ | e'⟩, t⟩ <;> rw [hr] at h <;>
      dsimp only at h
    · rcases ht : tooLarge size t with _ | e' <;> rw [ht] at h <;> cases h
      exact ⟨_, _, rfl⟩
    · cases h
      exact ⟨_, _, rfl⟩

theorem decodeStruct_of_kindOf {α : Type} {fields : Stream → Res α} {r : Kind × ℕ}
    (h : s.kindOf = .ok r s') : decodeStruct typ fields s' = decodeStruct typ fields s := by
  unfold decodeStruct
  rw [list_of_kindOf h]

theorem decodeStruct_of_error {α : Type} {fields : Stream → Res α} {e : Err}
    (h : s.kindOf = .error e s') (a : α) (t : Stream) : decodeStruct typ fields s ≠ .ok a t := by
  intro hd
  obtain ⟨size, u, hl, -⟩ := Res.andThen_eq_ok.1 hd
  rw [Res.mapError_eq_ok] at hl
  obtain ⟨r, u, hk, -⟩ := Res.andThen_eq_ok.1 hl
  rw [h] at hk
  cases hk

/-- The bytes that are decoded to the fields. -/
def FieldBytes : Fields → Bytes → Prop :=
  Followed (StringOf id fun b => b.length = 20) <|
  Followed (StringOf id fun b => b.length = 32) <|
  Followed (StringOf (fun i : UInt64 => minimal i.toNat) fun _ => True) <|
  Followed (StringOf (fun i : ℤ => minimal i.natAbs) fun i => 0 ≤ i) <|
  Followed (StringOf (fun i : UInt64 => minimal i.toNat) fun _ => True) <|
  Followed (OptionalArray 20) <|
  Followed (StringOf (fun i : ℤ => minimal i.natAbs) fun i => 0 ≤ i) <|
  Followed (StringOf id fun _ => True) <|
  Followed (StringOf (fun i : ℤ => minimal i.natAbs) fun i => 0 ≤ i) <|
  Followed (StringOf (fun i : ℤ => minimal i.natAbs) fun i => 0 ≤ i)
    (StringOf (fun i : ℤ => minimal i.natAbs) fun i => 0 ≤ i)

theorem parses_fields : Parses FieldBytes decodeFields :=
  parses_pair (parses_field _ _ (parses_byteArray _ (by norm_num))) <|
  parses_pair (parses_field _ _ (parses_byteArray _ (by norm_num))) <|
  parses_pair (parses_field _ _ parses_uint) <|
  parses_pair (parses_field _ _ parses_bigInt) <|
  parses_pair (parses_field _ _ parses_uint) <|
  parses_pair (parses_field _ _ (parses_optionalArray _ (by norm_num))) <|
  parses_pair (parses_field _ _ parses_bigInt) <|
  parses_pair (parses_field _ _ parses_byteSlice) <|
  parses_pair (parses_field _ _ parses_bigInt) <|
  parses_pair (parses_field _ _ parses_bigInt) (parses_field _ _ parses_bigInt)

/-- The bytes that are decoded to the transaction. -/
def TxBytes (tx : Tx) (bs : Bytes) : Prop :=
  ∃ p, ListOf FieldBytes p bs ∧ tx = { data := .ofFields p, cachedSize := some bs.length }

theorem listSize_eq {n : ℕ} (fits : n < 2 ^ 64) : listSize n = (header 0xC0 0xF7 n).length + n := by
  rw [listSize, ← length_puthead fits, puthead_eq fits]

theorem decodeRLP_eq_ok (hk : s.kind = none) : Tx.decodeRLP s = .ok tx s' ↔
    ∃ p size, decodeStruct "types.txdata" decodeFields s = .ok p s' ∧
      (∃ k t, s.kindOf = .ok (k, size) t) ∧
      tx = { data := .ofFields p, cachedSize := some (listSize size) } := by
  have inner : ∀ {size : ℕ} {t : Stream}, decodeSized size t = .ok tx s' ↔
      ∃ p, decodeStruct "types.txdata" decodeFields t = .ok p s' ∧
        tx = { data := .ofFields p, cachedSize := some (listSize size) } := by
    intro size t
    constructor
    · intro h
      obtain ⟨d, u, hd, h⟩ := Res.andThen_eq_ok.1 h
      rw [Res.mapError_eq_ok] at hd
      obtain ⟨p, v, hp, hd⟩ := Res.andThen_eq_ok.1 hd
      cases hd
      cases h
      exact ⟨p, hp, rfl⟩
    · rintro ⟨p, hp, rfl⟩
      exact Res.andThen_eq_ok.2
        ⟨_, s', Res.mapError_eq_ok.2 (Res.andThen_eq_ok.2 ⟨p, s', hp, rfl⟩), rfl⟩
  unfold Tx.decodeRLP
  cases hkind : s.kindOf with
  | ok r t =>
    obtain ⟨k, size⟩ := r
    rw [inner, decodeStruct_of_kindOf hkind]
    constructor
    · rintro ⟨p, hp, rfl⟩
      exact ⟨p, size, hp, ⟨k, t, rfl⟩, rfl⟩
    · rintro ⟨p, size', hp, ⟨k', t', heq⟩, rfl⟩
      cases heq
      exact ⟨p, hp, rfl⟩
  | error e t =>
    obtain ⟨e', u, hagain⟩ := kindOf_error_again hk hkind
    rw [inner]
    constructor
    · rintro ⟨p, hp, -⟩
      exact absurd hp (decodeStruct_of_error hagain p s')
    · rintro ⟨p, size, hp, -⟩
      exact absurd hp (decodeStruct_of_error hkind p s')

theorem size_of_ahead {t : Stream} {k : Kind} {size : ℕ} (hk : s.kind = none)
    (fits : cs.length < 2 ^ 64) (ahead : s.Ahead (encodeList cs)) (h : s.kindOf = .ok (k, size) t) :
    size = cs.length := by
  obtain ⟨r, u, hkind, hcont⟩ := Res.andThen_eq_ok.1 (list_complete hk fits ahead).1
  rw [h] at hkind
  cases hkind
  dsimp only at hcont
  split_ifs at hcont
  exact (EStateM.Result.ok.inj hcont).1

theorem parses_decodeRLP : Parses TxBytes Tx.decodeRLP := by
  have struct := parses_struct "types.txdata" parses_fields
  have size : ∀ {cs : Bytes}, cs.length < 2 ^ 64 → listSize cs.length = (encodeList cs).length := by
    intro cs fits
    rw [listSize_eq fits, encodeList, length_append]
  constructor
  · intro s tx s' hk h
    obtain ⟨p, n, hp, ⟨k, t, hkind⟩, rfl⟩ := (decodeRLP_eq_ok hk).1 h
    obtain ⟨bs, ⟨cs, hG, fits, rfl⟩, hread⟩ := struct.sound hk hp
    obtain rfl := size_of_ahead hk fits hread.ahead hkind
    exact ⟨_, ⟨p, ⟨cs, hG, fits, rfl⟩, by rw [size fits]⟩, hread⟩
  · rintro s tx _ hk ⟨p, ⟨cs, hG, fits, rfl⟩, rfl⟩ ahead
    obtain ⟨s', hp, hread⟩ := struct.complete hk ⟨cs, hG, fits, rfl⟩ ahead
    refine ⟨s', (decodeRLP_eq_ok hk).2 ⟨p, cs.length, hp, ?_, by rw [size fits]⟩, hread⟩
    obtain ⟨r, t, hkind, -⟩ := Res.andThen_eq_ok.1 (list_complete hk fits ahead).1
    obtain ⟨k, n⟩ := r
    obtain rfl := size_of_ahead hk fits ahead hkind
    exact ⟨k, t, hkind⟩

theorem decodeTx_eq_ok : Tx.decodeBytes b = .ok tx ↔ TxBytes tx b := by
  apply decodeBytesWith_eq_ok
  constructor
  · intro s a s' hk h
    exact parses_decodeRLP.sound hk (Res.mapError_eq_ok.1 h)
  · intro s a bs hk hG ahead
    obtain ⟨s', h, hread⟩ := parses_decodeRLP.complete hk hG ahead
    exact ⟨s', Res.mapError_eq_ok.2 h, hread⟩

/-! ## Items of the fields -/

/-- The items of decoded fields; `x` is the item the recipient was read from. -/
def fieldItems : Fields → Item → List Item
  | (dapp, ref, nonce, price, gas, _, amount, payload, v, r, s), x =>
    [.str dapp, .str ref, numberItem nonce.toNat, numberItem price.natAbs, numberItem gas.toNat, x,
      numberItem amount.natAbs, .str payload, numberItem v.natAbs, numberItem r.natAbs,
        numberItem s.natAbs]

/-- The recipient. -/
def Fields.recipient : Fields → Option Bytes
  | (_, _, _, _, _, recipient, _, _, _, _, _) => recipient

/-- The items that are decoded to a recipient. -/
def RecipientItem : Option Bytes → Item → Prop
  | none, x => x = .str [] ∨ x = .list []
  | some b, x => b.length = 20 ∧ x = .str b

theorem recipientItem_cases {x : Item} (h : RecipientItem o x) :
    x = .str (o.getD []) ∨ o = none ∧ x = .list [] := by
  cases o with
  | none => exact h.imp_right fun list => ⟨rfl, list⟩
  | some b => exact .inl h.2

/-- The arrays have their lengths, and the integers are not negative. -/
def Accepted : Fields → Prop
  | (dapp, ref, _, price, _, _, amount, _, v, r, s) =>
    dapp.length = 20 ∧ ref.length = 32 ∧ 0 ≤ price ∧ 0 ≤ amount ∧ 0 ≤ v ∧ 0 ≤ r ∧ 0 ≤ s

theorem optionalArray_iff {bs : Bytes} :
    OptionalArray 20 o bs ↔ ∃ x, RecipientItem o x ∧ x.Fits (2 ^ 64) ∧ bs = x.encode := by
  cases o with
  | none =>
    constructor
    · rintro (rfl | rfl)
      · exact ⟨.str [], .inl rfl, Item.fits_of_encode (by decide), rfl⟩
      · exact ⟨.list [], .inr rfl, Item.fits_of_encode (by decide), rfl⟩
    · rintro ⟨x, rfl | rfl, -, rfl⟩
      · exact .inl rfl
      · exact .inr rfl
  | some b =>
    constructor
    · rintro ⟨hlen, fits, rfl⟩
      exact ⟨.str b, ⟨hlen, rfl⟩, fits, rfl⟩
    · rintro ⟨x, ⟨hlen, rfl⟩, fits, rfl⟩
      exact ⟨hlen, fits, rfl⟩

variable {p : Fields}

theorem fieldBytes_iff : FieldBytes p cs ↔
    ∃ x, RecipientItem p.recipient x ∧ Accepted p ∧ AllFit (2 ^ 64) (fieldItems p x) ∧
      cs = encodeAll (fieldItems p x) := by
  constructor
  · rintro ⟨_, _, ⟨h1, f1, rfl⟩, ⟨_, _, ⟨h2, f2, rfl⟩, ⟨_, _, ⟨-, f3, rfl⟩, ⟨_, _, ⟨h4, f4, rfl⟩,
      ⟨_, _, ⟨-, f5, rfl⟩, ⟨_, _, h6, ⟨_, _, ⟨h7, f7, rfl⟩, ⟨_, _, ⟨-, f8, rfl⟩, ⟨_, _, ⟨h9, f9, rfl⟩,
      ⟨_, _, ⟨h10, f10, rfl⟩, ⟨h11, f11, rfl⟩, rfl⟩, rfl⟩, rfl⟩, rfl⟩, rfl⟩, rfl⟩, rfl⟩, rfl⟩, rfl⟩,
        rfl⟩
    obtain ⟨x, hx, f6, rfl⟩ := optionalArray_iff.1 h6
    refine ⟨x, hx, ⟨h1, h2, h4, h7, h9, h10, h11⟩,
      ⟨f1, f2, f3, f4, f5, f6, f7, f8, f9, f10, f11, trivial⟩, ?_⟩
    simp only [fieldItems, encodeAll, Item.encode, numberItem, id, append_nil]
  · rintro ⟨x, hx, ⟨h1, h2, h4, h7, h9, h10, h11⟩,
      ⟨f1, f2, f3, f4, f5, f6, f7, f8, f9, f10, f11, -⟩, rfl⟩
    refine ⟨_, _, ⟨h1, f1, rfl⟩, ⟨_, _, ⟨h2, f2, rfl⟩, ⟨_, _, ⟨trivial, f3, rfl⟩, ⟨_, _, ⟨h4, f4, rfl⟩,
      ⟨_, _, ⟨trivial, f5, rfl⟩, ⟨_, _, optionalArray_iff.2 ⟨x, hx, f6, rfl⟩, ⟨_, _, ⟨h7, f7, rfl⟩,
      ⟨_, _, ⟨trivial, f8, rfl⟩,
        ⟨_, _, ⟨h9, f9, rfl⟩, ⟨_, _, ⟨h10, f10, rfl⟩, ⟨h11, f11, rfl⟩, rfl⟩, rfl⟩,
      rfl⟩, rfl⟩, rfl⟩, rfl⟩, rfl⟩, rfl⟩, rfl⟩, ?_⟩
    simp only [fieldItems, encodeAll, Item.encode, numberItem, id, append_nil]

theorem listOf_fieldBytes : ListOf FieldBytes p b ↔
    ∃ x, RecipientItem p.recipient x ∧ Accepted p ∧ (Item.list (fieldItems p x)).Fits (2 ^ 64) ∧
      b = (Item.list (fieldItems p x)).encode := by
  constructor
  · rintro ⟨cs, hcs, fits, rfl⟩
    obtain ⟨x, hx, accepted, all, rfl⟩ := fieldBytes_iff.1 hcs
    exact ⟨x, hx, accepted, ⟨fits, all⟩, rfl⟩
  · rintro ⟨x, hx, accepted, ⟨fits, all⟩, rfl⟩
    exact ⟨_, fieldBytes_iff.2 ⟨x, hx, accepted, all, rfl⟩, fits, rfl⟩

/-- Decoded data are written as they were read, but the recipient as a string. -/
theorem items_ofFields (accepted : Accepted p) {x : Item} (hx : RecipientItem p.recipient x) :
    (TxData.ofFields p).items = fieldItems p (.str (p.recipient.getD [])) := by
  obtain ⟨dapp, ref, nonce, price, gas, recipient, amount, payload, v, r, s⟩ := p
  obtain ⟨hdapp, href, -⟩ := accepted
  have hrecipient : pointerItem
    ((deref (recipient.map fun b => Ref.fresh (bytesToAddress b))).map addressBytes) =
      .str (recipient.getD []) := by
    cases recipient with
    | none => rfl
    | some b => exact congrArg Item.str (addressBytes_bytesToAddress hx.1)
  simp only [TxData.ofFields, TxData.items, fieldItems, hrecipient, Fields.recipient]
  simp only [deref, map_some, Ref.value, pointerItem, getD_some,
    addressBytes_bytesToAddress hdapp, hashBytes_bytesToHash href]

theorem encodable_ofFields (accepted : Accepted p) : (TxData.ofFields p).Encodable := by
  exact accepted.2.2

/-! ## From bytes and back -/

/-- The recipient is an empty list. -/
def RecipientIsList (b : Bytes) : Prop :=
  ∃ xs, Rlp.decodeBytes b = .ok (.list xs) ∧ xs[5]? = some (.list [])

theorem fieldItems_inj {x y : Item} : fieldItems p x = fieldItems p y ↔ x = y := by
  refine ⟨fun h => ?_, fun h => by rw [h]⟩
  have := congrArg (fun xs => xs[5]?) h
  exact some.inj this

theorem fits_fieldItems {x : Item} (hx : RecipientItem p.recipient x) {n : ℕ}
    (fits : (Item.list (fieldItems p x)).Fits n) :
    (Item.list (fieldItems p (.str (p.recipient.getD [])))).Fits n := by
  rcases recipientItem_cases hx with rfl | ⟨none, rfl⟩
  · exact fits
  · rw [none]
    have same : (encodeAll (fieldItems p (.str []))).length =
        (encodeAll (fieldItems p (.list []))).length := by
      simp only [fieldItems, encodeAll, length_append]
      rfl
    obtain ⟨short, f1, f2, f3, f4, f5, f6, rest⟩ := fits
    refine ⟨same ▸ short, f1, f2, f3, f4, f5, ?_, rest⟩
    exact Nat.lt_of_le_of_lt (Nat.zero_le _) short

theorem reencode_iff (h : Tx.decodeBytes b = .ok tx) : tx.encodeRLP = .ok b ↔ ¬ RecipientIsList b := by
  obtain ⟨p, hp, rfl⟩ := decodeTx_eq_ok.1 h
  obtain ⟨x, hx, accepted, fits, rfl⟩ := listOf_fieldBytes.1 hp
  have fits' := fits_fieldItems hx fits
  have enc : encodeWith (TxData.ofFields p).writer =
      .ok (Item.list (fieldItems p (.str (p.recipient.getD [])))).encode := by
    have written := TxData.writes_writer (encodable_ofFields accepted)
    rw [items_ofFields accepted hx] at written
    exact encodeWith_of_writes written fits'
  have same : (Item.list (fieldItems p (.str (p.recipient.getD [])))).encode =
      (Item.list (fieldItems p x)).encode ↔ x = .str (p.recipient.getD []) := by
    refine ⟨fun heq => ?_, fun heq => by rw [heq]⟩
    exact (fieldItems_inj.1 (Item.list.inj (encode_inj fits' fits heq))).symm
  have empty : RecipientIsList (Item.list (fieldItems p x)).encode ↔ x = .list [] := by
    have decoded := decodeBytes_eq_ok.2 ⟨fits, rfl⟩
    constructor
    · rintro ⟨xs, hxs, hget⟩
      rw [decoded] at hxs
      cases hxs
      exact some.inj hget
    · rintro rfl
      exact ⟨_, decoded, rfl⟩
  rw [Tx.encodeRLP, enc, Except.ok.injEq, same, empty]
  -- a recipient is read from a string or from the empty list
  rcases recipientItem_cases hx with rfl | ⟨-, rfl⟩
  · exact iff_of_true rfl nofun
  · exact iff_of_false nofun (not_not.2 rfl)

/-! ## From transactions and back -/

/-- The encoding, if any, has a length of 64 bits, as all that fits in memory. -/
def TxData.Sized (d : TxData) : Prop := d.Encodable → (Item.list d.items).Fits (2 ^ 64)

/-- The encoding is decoded to the same hash, recipient and references. -/
def Survives (keccak : Bytes → Hash) (tx : Tx) : Prop :=
  ∃ b tx', tx.encodeRLP = .ok b ∧ Tx.decodeBytes b = .ok tx' ∧
    (tx'.hash keccak).1 = (tx.hash keccak).1 ∧
    tx'.recipient = tx.recipient ∧ tx'.dappID = tx.dappID ∧ tx'.refHashId = tx.refHashId

/-- No integer is negative, the references are there, the recipient is not the shared zero address,
and a cached hash is right. -/
structure WireReady (keccak : Bytes → Hash) (tx : Tx) : Prop where
  encodable : tx.data.Encodable
  dappId : tx.data.dappId ≠ none
  refHashId : tx.data.refHashId ≠ none
  recipient : tx.data.recipient ≠ some .empty
  cached : ∀ h ∈ tx.cachedHash, h = rlpHash keccak tx.data.writer

section RoundTrip

variable {keccak : Bytes → Hash} {tx : Tx}

theorem hash_eq_iff : (tx.hash keccak).1 = rlpHash keccak tx.data.writer ↔
    ∀ h ∈ tx.cachedHash, h = rlpHash keccak tx.data.writer := by
  unfold Tx.hash
  cases hc : tx.cachedHash with
  | none | some h => simp

theorem recipient_of_fresh {a : Address} (h : tx.data.recipient = some (.fresh a)) :
    tx.recipient = some a := by
  unfold Tx.recipient
  rw [h, if_neg (by simp)]
  rfl

theorem recipient_of_shared (h : tx.data.recipient = some .empty) : tx.recipient = none :=
  if_pos (.inr h)

theorem encodeRLP_eq_ok (sized : tx.data.Sized) :
    tx.encodeRLP = .ok b ↔ tx.data.Encodable ∧ b = (Item.list tx.data.items).encode := by
  unfold Tx.encodeRLP
  by_cases h : tx.data.Encodable
  · rw [encodeWith_of_writes (TxData.writes_writer h) (sized h)]
    simp [h, eq_comm]
  · rw [encodeWith_of_fails (TxData.fails_writer h)]
    simp [h]

/-- The fields of the data. -/
def TxData.fields (d : TxData) (dapp : Ref 160) (ref : Ref 256) : Fields :=
  (addressBytes dapp.value, hashBytes ref.value, d.accountNonce, d.price, d.gasLimit,
    (deref d.recipient).map addressBytes, d.amount, d.payload, d.v, d.r, d.s)

theorem items_fields {d : TxData} {dapp : Ref 160} {ref : Ref 256} (hd : d.dappId = some dapp)
    (hr : d.refHashId = some ref) :
    d.items =
      fieldItems (d.fields dapp ref) (.str (((deref d.recipient).map addressBytes).getD [])) := by
  simp only [TxData.items, fieldItems, TxData.fields, hd, hr]
  rfl

theorem recipientItem_fields (d : TxData) (dapp : Ref 160) (ref : Ref 256) :
    RecipientItem (d.fields dapp ref).recipient
      (.str (((deref d.recipient).map addressBytes).getD [])) := by
  cases hr : deref d.recipient with
  | none | some a => simp [Fields.recipient, TxData.fields, hr, RecipientItem]

theorem ofFields_fields (d : TxData) (dapp : Ref 160) (ref : Ref 256) :
    TxData.ofFields (d.fields dapp ref) = { d with
        dappId := some (.fresh dapp.value), refHashId := some (.fresh ref.value),
        recipient := (deref d.recipient).map .fresh } := by
  have back : (fun b => Ref.fresh (bytesToAddress b)) ∘ addressBytes = Ref.fresh := by
    funext a
    exact congrArg Ref.fresh (bytesToAddress_addressBytes a)
  simp only [TxData.ofFields, TxData.fields, bytesToAddress_addressBytes, bytesToHash_hashBytes,
    Option.map_map, back]

theorem survives_of_ready (sized : tx.data.Sized) (ready : WireReady keccak tx) :
    Survives keccak tx := by
  obtain ⟨dapp, hd⟩ := Option.ne_none_iff_exists'.1 ready.dappId
  obtain ⟨ref, hr⟩ := Option.ne_none_iff_exists'.1 ready.refHashId
  have items := items_fields hd hr
  have accepted : Accepted (tx.data.fields dapp ref) :=
    ⟨length_addressBytes _, length_hashBytes _, ready.encodable⟩
  have fits := sized ready.encodable
  rw [items] at fits
  have decoded := decodeTx_eq_ok.2 ⟨_, listOf_fieldBytes.2
    ⟨_, recipientItem_fields tx.data dapp ref, accepted, fits, rfl⟩, rfl⟩
  rw [← items] at decoded
  refine ⟨_, _, (encodeRLP_eq_ok sized).2 ⟨ready.encodable, rfl⟩, decoded, ?_, ?_, ?_, ?_⟩
  · -- the decoded data are written by the same writer
    rw [hash_eq_iff.2 ready.cached]
    change rlpHash keccak (TxData.ofFields (tx.data.fields dapp ref)).writer = _
    rw [ofFields_fields]
    unfold TxData.writer
    simp only [hd, hr, deref, Option.map_some, Ref.value, Option.map_map]
    rfl
  · unfold Tx.recipient
    rw [ofFields_fields]
    cases hrec : tx.data.recipient with
    | none => rfl
    | some a =>
      cases a with
      | empty => exact absurd hrec ready.recipient
      | fresh a => rfl
  · change deref (TxData.ofFields (tx.data.fields dapp ref)).dappId = _
    rw [ofFields_fields, Tx.dappID, hd]
    rfl
  · change deref (TxData.ofFields (tx.data.fields dapp ref)).refHashId = _
    rw [ofFields_fields, Tx.refHashId, hr]
    rfl

theorem items_of_decoded (sized : tx.data.Sized) {tx' : Tx} (henc : tx.encodeRLP = .ok b)
    (hdec : Tx.decodeBytes b = .ok tx') : tx.data.Encodable ∧
      ∃ p x, tx' = { data := .ofFields p, cachedSize := some b.length } ∧ RecipientItem p.recipient x ∧
        Accepted p ∧ tx.data.items = fieldItems p x := by
  obtain ⟨encodable, rfl⟩ := (encodeRLP_eq_ok sized).1 henc
  obtain ⟨p, hp, rfl⟩ := decodeTx_eq_ok.1 hdec
  obtain ⟨x, hx, accepted, fits, heq⟩ := listOf_fieldBytes.1 hp
  exact ⟨encodable, p, x, rfl, hx, accepted, Item.list.inj (encode_inj (sized encodable) fits heq)⟩

theorem ready_of_survives (sized : tx.data.Sized) (h : Survives keccak tx) : WireReady keccak tx := by
  obtain ⟨b, tx', henc, hdec, hhash, hrecipient, -, -⟩ := h
  obtain ⟨encodable, p, x, rfl, hx, accepted, items⟩ := items_of_decoded sized henc hdec
  -- all items of a transaction are strings, the recipient's too
  have string : fieldItems p x = fieldItems p (.str (p.recipient.getD [])) := by
    have hget := congrArg (fun xs => xs[5]?) items
    rcases recipientItem_cases hx with rfl | ⟨-, rfl⟩
    · rfl
    · cases hget
  have hash : rlpHash keccak (TxData.ofFields p).writer = rlpHash keccak tx.data.writer := by
    have items' : (TxData.ofFields p).items = tx.data.items := by
      rw [items_ofFields accepted hx, ← string, items]
    have written := TxData.writes_writer (encodable_ofFields accepted)
    rw [items'] at written
    rw [rlpHash_of_writes written (sized encodable),
      rlpHash_of_writes (TxData.writes_writer encodable) (sized encodable)]
  obtain ⟨dapp, ref, nonce, price, gas, recipient, amount, payload, v, r, s⟩ := p
  obtain ⟨hdapp, href, -⟩ := accepted
  simp only [TxData.items, fieldItems, cons.injEq] at items
  obtain ⟨h1, h2, -, -, -, h6, -⟩ := items
  refine ⟨encodable, ?_, ?_, ?_, hash_eq_iff.1 (hhash.symm.trans hash)⟩
  · intro hnil
    rw [hnil] at h1
    cases h1
    cases hdapp
  · intro hnil
    rw [hnil] at h2
    cases h2
    cases href
  · -- the shared zero address is decoded to another pointer to it
    intro shared
    rw [shared] at h6
    cases recipient with
    | none =>
      have full : (addressBytes 0).length = 20 := length_addressBytes 0
      rcases hx with rfl | rfl
      · have nil : addressBytes 0 = [] := Item.str.inj h6
        rw [nil] at full
        cases full
      · cases h6
    | some b =>
      rw [recipient_of_fresh rfl, recipient_of_shared shared] at hrecipient
      cases hrecipient

end RoundTrip

/-- The transactions that the constructors make. -/
inductive Made (C : Crypto) : Transaction → Prop where
  | transfer (nonce recipient amount gasLimit gasPrice data) :
    Made C (NewTransaction C.keccak nonce recipient amount gasLimit gasPrice data)
  | dapp (dappId nonce gasLimit gasPrice data) :
    Made C (NewDAppTransaction C.keccak dappId nonce gasLimit gasPrice data)
  | creation (nonce amount gasLimit gasPrice data) :
    Made C (NewContractCreation C.keccak nonce amount gasLimit gasPrice data)
  | dappCreation (dappId nonce amount gasLimit gasPrice data) :
    Made C (NewDAppContractCreation C.keccak dappId nonce amount gasLimit gasPrice data)
  | signed {tx signed s k} (made : Made C tx) (h : signTx C tx s k = .ok signed) : Made C signed
  | json {dec tx} (h : unmarshalJSON dec = .ok tx) : Made C tx

/-- The transaction, or its companion. -/
def Part (tx : Transaction) (t : Tx) : Prop := t = tx.toTx ∨ tx.dappTx = some t

/-- Which byte strings are encoded to themselves, and which transactions come back from their
encoding. -/
theorem wire_form_iff (C : Crypto) :
    (∀ b tx, Tx.decodeBytes b = .ok tx → (tx.encodeRLP = .ok b ↔ ¬ RecipientIsList b)) ∧
      ∀ tx t, Made C tx → Part tx t → t.data.Sized → (Survives C.keccak t ↔ WireReady C.keccak t) :=
  ⟨fun _ _ => reencode_iff, fun _ _ _ _ sized => ⟨ready_of_survives sized, survives_of_ready sized⟩⟩

/-- A transfer of a value, with a price and data. -/
def paidTransfer : Transaction := NewTransaction toyCrypto.keccak 3 7 (some 5) 21000 (some 2) [1, 2]

/-- A transfer comes back from its encoding, and the encoding from the transfer. -/
theorem wire_form_transfer : Made toyCrypto paidTransfer ∧ Survives toyCrypto.keccak paidTransfer.toTx ∧
      ∀ b tx, Tx.decodeBytes b = .ok tx → ¬ RecipientIsList b → tx.encodeRLP = .ok b := by
  have made : Made toyCrypto paidTransfer := .transfer 3 7 (some 5) 21000 (some 2) [1, 2]
  have sized : paidTransfer.data.Sized := fun _ => Item.fits_of_encode (by decide +kernel)
  refine ⟨made, ?_, fun b tx h => ((wire_form_iff toyCrypto).1 b tx h).2⟩
  exact ((wire_form_iff toyCrypto).2 paidTransfer _ made (.inl rfl) sized).2
    ⟨by decide, by decide, by decide, by decide, fun h hh => absurd hh (not_mem_none h)⟩

/-- An encoding with the recipient given. -/
def wireBytes (recipient : UInt8) : Bytes :=
  [0xF8, 63, 0x94] ++ List.replicate 20 0 ++ [0xA0] ++ List.replicate 32 0 ++
    [0x80, 0x80, 0x80, recipient, 0x80, 0x80, 0x80, 0x80, 0x80]

/-- A DApp transaction. -/
def dappTransfer : Tx := (NewDAppTransaction toyCrypto.keccak (some (.fresh 7)) 0 0 none []).toTx

/-- A contract creation. -/
def jsonCreation : JsonTxData where
  dappId := none
  refHashId := none
  accountNonce := some 0
  price := some 0
  gasLimit := some 0
  recipient := none
  amount := some 0
  payload := some []
  v := some 27
  r := some 1
  s := some 1

/-- An empty list as recipient is written as an empty string; the recipient of a DApp transaction is
decoded to the zero address; and JSON without a DApp gives a transaction whose encoding is refused.
-/
theorem wire_form_fails :
    (Tx.decodeBytes (wireBytes 0xC0)).toOption.bind (fun tx => tx.encodeRLP.toOption) =
      some (wireBytes 0x80) ∧ dappTransfer.recipient = none ∧
      (dappTransfer.encodeRLP.toOption.bind fun b => (Tx.decodeBytes b).toOption).map Tx.recipient =
        some (some 0) ∧ ((unmarshalJSON jsonCreation).toOption.bind fun tx =>
        tx.encodeRLP.toOption.map fun b => (Tx.decodeBytes b).toOption) = some none := by
  decide +kernel

/-! ## Contract creations -/

/-- The recipient in `AsMessage`. -/
def Tx.messageTo (tx : Tx) : Option Address := deref tx.data.recipient

/-- `To`, the message and the decoded transaction agree on whether it creates a contract. -/
structure OneAnswer (tx : Tx) : Prop where
  message : tx.recipient = none ↔ tx.messageTo = none
  wire : ∀ b tx', tx.encodeRLP = .ok b → Tx.decodeBytes b = .ok tx' →
    (tx'.recipient = none ↔ tx.recipient = none) ∧ (tx'.messageTo = none ↔ tx.messageTo = none)

section OneAnswer

variable {tx : Tx}

theorem recipient_eq_messageTo (h : tx.data.recipient ≠ some .empty) : tx.recipient = tx.messageTo := by
  unfold Tx.recipient Tx.messageTo
  split_ifs with nil
  · rw [nil.resolve_right h]
    rfl
  · rfl

theorem recipientItem_pointer {a : Option Address}
    (h : RecipientItem o (pointerItem (a.map addressBytes))) : o = none ↔ a = none := by
  cases a with
  | none =>
    cases o with
    | none => simp
    | some b =>
      obtain ⟨full, nil⟩ := h
      cases nil
      cases full
  | some a =>
    cases o with
    | none => simp [RecipientItem, pointerItem, addressBytes_ne_nil] at h
    | some b => simp

theorem messageTo_decoded (sized : tx.data.Sized) {tx' : Tx} (henc : tx.encodeRLP = .ok b)
    (hdec : Tx.decodeBytes b = .ok tx') :
    tx'.data.recipient ≠ some .empty ∧ (tx'.messageTo = none ↔ tx.messageTo = none) := by
  obtain ⟨-, p, x, rfl, hx, -, items⟩ := items_of_decoded sized henc hdec
  obtain ⟨dapp, ref, nonce, price, gas, recipient, amount, payload, v, r, s⟩ := p
  simp only [TxData.items, fieldItems, cons.injEq] at items
  have same := items.2.2.2.2.2.1
  rw [← same] at hx
  have either := recipientItem_pointer hx
  refine ⟨by simp [TxData.ofFields], ?_⟩
  cases recipient with
  | none => exact iff_of_true rfl (either.1 rfl)
  | some b => exact iff_of_false (Option.some_ne_none _) fun none => by cases either.2 none

/-- There is one answer exactly without a pointer to the shared zero address. -/
theorem one_answer_iff (sized : tx.data.Sized) : OneAnswer tx ↔ tx.data.recipient ≠ some .empty := by
  constructor
  · intro h shared
    have nil := h.message.1 (recipient_of_shared shared)
    rw [Tx.messageTo, shared] at nil
    cases nil
  · intro own
    refine ⟨by rw [recipient_eq_messageTo own], fun b tx' henc hdec => ?_⟩
    obtain ⟨own', same⟩ := messageTo_decoded sized henc hdec
    rw [recipient_eq_messageTo own, recipient_eq_messageTo own']
    exact ⟨same, same⟩

end OneAnswer

theorem transfer_has_one_answer : OneAnswer paidTransfer.toTx :=
  (one_answer_iff fun _ => Item.fits_of_encode (by decide +kernel)).2 (by decide)

/-- `To` says that a DApp transaction creates a contract; the message and the decoded transaction
say that it calls the zero address. -/
theorem dapp_has_two_answers : dappTransfer.recipient = none ∧ dappTransfer.messageTo = some 0 ∧
      (dappTransfer.encodeRLP.toOption.bind fun b => (Tx.decodeBytes b).toOption).map
        (fun tx => (tx.recipient, tx.messageTo)) = some (some 0, some 0) := by
  decide +kernel

end JuChain.Types
