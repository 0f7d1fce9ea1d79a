import JuChain.Types.Wire

/-!
# A main transaction and its companion

`newTransaction` binds the two transactions of a DApp call to each other: the payload of the main
one is the hash of the companion, and the companion refers to the hash of the main one, as it was
before it was signed.  `Hash` and `Sender` may be called at any time; both change the caches.
-/

namespace JuChain.Types

open BigEndian RLP JuChain.Rlp List Option
open JuChain.Pool (Ref)

variable (keccak : Bytes → Hash) {d : TxData} {t : Tx}

/-- A call after the pair was made. -/
inductive Call (C : Crypto) where
  | sign (i : ℕ) (s : Signer) (k : C.Key)
  | hash (i : ℕ)
  | hashDApp (i : ℕ)
  | sender (i : ℕ) (s : Signer)

/-- `Transaction.Hash`, which is cached. -/
def callHash (tx : Transaction) : Transaction := { tx with toTx := (tx.toTx.hash keccak).2 }

/-- The same for the companion. -/
def callHashDApp (tx : Transaction) : Transaction :=
  { tx with dappTx := tx.dappTx.map fun d => (d.hash keccak).2 }

/-- The transactions after a call.  A signed one is new; when signing fails there is none. -/
def call (C : Crypto) (txs : List Transaction) : Call C → Option (List Transaction)
  | .sign i s k =>
    match txs[i]? with
    | none => none
    | some tx =>
      match signTx C tx s k with
      | .ok signed => some (txs ++ [signed])
      | .error _ => some txs
  | .hash i => some (txs.modify i (callHash C.keccak))
  | .hashDApp i => some (txs.modify i (callHashDApp C.keccak))
  | .sender i s => some (txs.modify i fun tx => (sender C s tx).2)

/-- `Hash` returns the hash of the data. -/
def Hashed (t : Tx) : Prop := (t.hash keccak).1 = rlpHash keccak t.data.writer

/-- The data without its reference and signature. -/
def TxData.cleared (d : TxData) : TxData := { d with refHashId := some .empty, v := 0, r := 0, s := 0 }

/-- The pair is bound. -/
def Bound (tx : Transaction) (d : Tx) : Prop :=
  tx.data.payload = hashBytes (rlpHash keccak d.data.cleared.writer) ∧
    d.refHashId = some (tx.toTx.hash keccak).1

/-- The pairs that were signed are bound, and every hash is that of the data. -/
def PairsBound (txs : List Transaction) : Prop :=
  (∀ tx ∈ txs.tail, ∀ d ∈ tx.dappTx, Bound keccak tx d) ∧ ∀ tx ∈ txs, ∀ t, Part tx t → Hashed keccak t

/-! ## The created pair -/

/-- The arguments of a new transaction. -/
structure Order where
  dappId : Option (Ref 160)
  nonce : UInt64
  recipient : Option (Ref 160)
  amount : Option ℤ
  gasLimit : UInt64
  gasPrice : Option ℤ
  data : Bytes

namespace Order

variable (keccak : Bytes → Hash) (o : Order)

/-- The pair. -/
def create : Transaction :=
  newTransaction keccak o.dappId o.nonce o.recipient o.amount o.gasLimit o.gasPrice o.data

/-- The companion's data. -/
def companion : TxData :=
  (newDAppTransaction o.dappId (some .empty) o.nonce o.gasLimit o.gasPrice o.data).data

/-- The main transaction's data. -/
def main : TxData where
  dappId := o.dappId
  refHashId := some .empty
  accountNonce := o.nonce
  price := o.gasPrice.getD 0
  gasLimit := o.gasLimit
  recipient := o.recipient
  amount := o.amount.getD 0
  payload := hashBytes (rlpHash keccak o.companion.writer)
  v := 0
  r := 0
  s := 0

/-- The companion that `newTransaction` returns, with the hash before the last assignment. -/
def created : Tx where
  data := { o.companion with refHashId := some (.fresh (rlpHash keccak (o.main keccak).writer)) }
  cachedHash := some (rlpHash keccak o.companion.writer)

variable {o}

theorem create_eq (names : NamesDApp o.dappId) : o.create keccak =
    { data := o.main keccak
      cachedHash := some (rlpHash keccak (o.main keccak).writer)
      dappTx := some (o.created keccak) } := if_pos names

end Order

/-! ## What signing and the caches leave alone -/

section Calls

variable {C : Crypto} {s : Signer} {k : C.Key}

theorem signOne_data {tx : Tx} (h : signOne C s k tx = .ok t) :
    ∃ r s v, t = { data := { tx.data with r := r, s := s, v := v } } := by
  unfold signOne at h
  split at h
  · cases h
  · unfold Tx.withSignature at h
    cases hv : s.signatureValues _ with
    | error e =>
      rw [hv] at h
      cases h
    | ok values =>
      rw [hv] at h
      cases h
      exact ⟨_, _, _, rfl⟩

theorem signTx_parts {tx signed : Transaction} (h : signTx C tx s k = .ok signed) :
    signOne C s k tx.toTx = .ok signed.toTx ∧
      (∀ d' ∈ signed.dappTx, ∃ d ∈ tx.dappTx, signOne C s k d = .ok d') ∧
      ∀ d ∈ tx.dappTx, ∃ d' ∈ signed.dappTx, signOne C s k d = .ok d' := by
  unfold signTx at h
  cases hmain : signOne C s k tx.toTx with
  | error e =>
    rw [hmain] at h
    cases h
  | ok main =>
    rw [hmain] at h
    cases hd : tx.dappTx with
    | none =>
      rw [hd] at h
      cases h
      exact ⟨rfl, fun d' hd' => absurd hd' (not_mem_none d'),
        fun d hd => absurd hd (not_mem_none d)⟩
    | some d =>
      rw [hd] at h
      dsimp only at h
      cases hs : signOne C s k d with
      | error e =>
        rw [hs] at h
        cases h
      | ok d' =>
        rw [hs] at h
        cases h
        refine ⟨rfl, fun d'' hd'' => ⟨d, rfl, ?_⟩, fun d'' hd'' => ⟨d', rfl, ?_⟩⟩
        · cases hd''
          exact hs
        · cases hd''
          exact hs

theorem sender_parts (C : Crypto) (s : Signer) (tx : Transaction) :
    (∃ c, (sender C s tx).2.toTx = { tx.toTx with cachedFrom := c }) ∧
      ∀ d' ∈ (sender C s tx).2.dappTx, ∃ d ∈ tx.dappTx, ∃ c, d' = { d with cachedFrom := c } := by
  have same : ∀ d' ∈ tx.dappTx, ∃ d ∈ tx.dappTx, ∃ c, d' = { d with cachedFrom := c } :=
    fun d' hd' => ⟨d', hd', d'.cachedFrom, rfl⟩
  unfold sender
  split
  · exact ⟨⟨tx.cachedFrom, rfl⟩, same⟩
  · split
    · exact ⟨⟨tx.cachedFrom, rfl⟩, same⟩
    · split
      · exact ⟨⟨_, rfl⟩, same⟩
      · rename_i d hd
        split
        · exact ⟨⟨_, rfl⟩, same⟩
        · refine ⟨⟨_, rfl⟩, fun d' hd' => ?_⟩
          cases hd'
          exact ⟨d, hd, _, rfl⟩

theorem mem_modify {α : Type} {f : α → α} {xs : List α} {i : ℕ} {y : α} (h : y ∈ xs.modify i f) :
    y ∈ xs ∨ ∃ x ∈ xs, y = f x := by
  induction xs generalizing i with
  | nil =>
    rw [modify_nil] at h
    exact .inl h
  | cons x xs ih =>
    cases i with
    | zero =>
      rcases mem_cons.1 h with rfl | h
      · exact .inr ⟨x, mem_cons_self, rfl⟩
      · exact .inl (mem_cons_of_mem x h)
    | succ i =>
      rcases mem_cons.1 h with rfl | h
      · exact .inl mem_cons_self
      · rcases ih h with h | ⟨z, hz, rfl⟩
        · exact .inl (mem_cons_of_mem x h)
        · exact .inr ⟨z, mem_cons_of_mem x hz, rfl⟩

theorem call_forall {Q : Transaction → Prop}
    (hsign : ∀ {tx s k signed}, Q tx → signTx C tx s k = .ok signed → Q signed)
    (hhash : ∀ {tx}, Q tx → Q (callHash C.keccak tx))
    (hhashDApp : ∀ {tx}, Q tx → Q (callHashDApp C.keccak tx))
    (hsender : ∀ {tx s}, Q tx → Q (sender C s tx).2) {txs txs' : List Transaction} {c : Call C}
    (h : ∀ tx ∈ txs, Q tx) (step : call C txs c = some txs') : ∀ tx ∈ txs', Q tx := by
  have modified : ∀ {f : Transaction → Transaction} {i : ℕ}, (∀ {tx}, Q tx → Q (f tx)) →
      ∀ tx ∈ txs.modify i f, Q tx := by
    intro f i hf tx htx
    rcases mem_modify htx with old | ⟨tx', old, rfl⟩
    · exact h tx old
    · exact hf (h tx' old)
  cases c with
  | sign i s k =>
    unfold call at step
    dsimp only at step
    split at step
    · cases step
    · rename_i tx htx
      split at step
      · rename_i signed hs
        cases step
        intro tx' htx'
        rcases mem_append.1 htx' with htx' | htx'
        · exact h tx' htx'
        · rw [mem_singleton.1 htx']
          exact hsign (h tx (mem_of_getElem? htx)) hs
      · cases step
        exact h
  | hash i =>
    cases step
    exact modified hhash
  | hashDApp i =>
    cases step
    exact modified hhashDApp
  | sender i s =>
    cases step
    exact modified hsender

theorem hash_data (t : Tx) : (t.hash keccak).2.data = t.data := by
  unfold Tx.hash
  split <;> rfl

end Calls

/-! ## Pairs without an encoding -/

section Unwritten

variable {C : Crypto} {keccak : Bytes → Hash}

theorem rlpHash_of_negative (h : d.price < 0) : rlpHash keccak d.writer = keccak [] :=
  rlpHash_of_fails (TxData.fails_writer fun encodable => absurd encodable.1 (not_le.2 h))

/-- A transaction with a negative price: its hashes are of the empty string. -/
structure Unwritten (keccak : Bytes → Hash) (t : Tx) : Prop where
  price : t.data.price < 0
  cached : ∀ h ∈ t.cachedHash, h = keccak []

theorem Unwritten.hash_eq (h : Unwritten keccak t) : (t.hash keccak).1 = keccak [] := by
  unfold Tx.hash
  split
  · rename_i hc
    exact h.cached _ hc
  · exact rlpHash_of_negative h.price

theorem Unwritten.hash (h : Unwritten keccak t) : Unwritten keccak (t.hash keccak).2 := by
  unfold Tx.hash
  split
  · exact h
  · refine ⟨h.price, fun x hx => ?_⟩
    cases hx
    exact rlpHash_of_negative h.price

theorem Unwritten.signOne {s : Signer} {k : C.Key} {t' : Tx} (h : Unwritten keccak t)
    (hs : signOne C s k t = .ok t') : Unwritten keccak t' := by
  obtain ⟨r, s, v, rfl⟩ := signOne_data hs
  exact ⟨h.price, fun x hx => absurd hx (not_mem_none x)⟩

/-- A pair with a negative price: its references are of the empty string. -/
structure UnwrittenPair (keccak : Bytes → Hash) (tx : Transaction) : Prop where
  main : Unwritten keccak tx.toTx
  payload : tx.data.payload = hashBytes (keccak [])
  companion : ∀ d ∈ tx.dappTx, Unwritten keccak d ∧ d.refHashId = some (keccak [])

theorem call_unwritten {txs txs' : List Transaction} {c : Call C}
    (h : ∀ tx ∈ txs, UnwrittenPair C.keccak tx)
    (step : call C txs c = some txs') : ∀ tx ∈ txs', UnwrittenPair C.keccak tx := by
  refine call_forall ?_ ?_ ?_ ?_ h step
  · intro tx s k signed hp hs
    obtain ⟨hmain, hd, -⟩ := signTx_parts hs
    refine ⟨hp.main.signOne hmain, ?_, fun d' hd' => ?_⟩
    · obtain ⟨r, t, v, hdata⟩ := signOne_data hmain
      rw [hdata]
      exact hp.payload
    · obtain ⟨d, hmem, hd⟩ := hd d' hd'
      refine ⟨(hp.companion d hmem).1.signOne hd, ?_⟩
      obtain ⟨r, t, v, rfl⟩ := signOne_data hd
      exact (hp.companion d hmem).2
  · intro tx hp
    refine ⟨hp.main.hash, ?_, hp.companion⟩
    change (tx.toTx.hash C.keccak).2.data.payload = _
    rw [hash_data]
    exact hp.payload
  · intro tx hp
    refine ⟨hp.main, hp.payload, fun d' hd' => ?_⟩
    obtain ⟨d, hd, rfl⟩ := mem_map.1 hd'
    refine ⟨(hp.companion d hd).1.hash, ?_⟩
    rw [Tx.refHashId, hash_data]
    exact (hp.companion d hd).2
  · intro tx s hp
    obtain ⟨⟨c, hmain⟩, hd⟩ := sender_parts C s tx
    refine ⟨?_, ?_, fun d' hd' => ?_⟩
    · rw [hmain]
      exact ⟨hp.main.price, hp.main.cached⟩
    · rw [hmain]
      exact hp.payload
    · obtain ⟨d, hmem, c', rfl⟩ := hd d' hd'
      obtain ⟨⟨price, cached⟩, href⟩ := hp.companion d hmem
      exact ⟨⟨price, cached⟩, href⟩

theorem pairsBound_of_unwritten {txs : List Transaction} (h : ∀ tx ∈ txs, UnwrittenPair keccak tx) :
    PairsBound keccak txs := by
  refine ⟨fun tx htx d hd => ?_, fun tx htx t ht => ?_⟩
  · have hp := h tx (mem_of_mem_tail htx)
    obtain ⟨hd, href⟩ := hp.companion d hd
    refine ⟨?_, by rw [href, hp.main.hash_eq]⟩
    have negative : d.data.cleared.price < 0 := hd.price
    rw [hp.payload, rlpHash_of_negative negative]
  · have part : Unwritten keccak t := by
      rcases ht with rfl | ht
      · exact (h tx htx).main
      · exact ((h tx htx).companion t ht).1
    rw [Hashed, part.hash_eq, rlpHash_of_negative part.price]

end Unwritten

theorem length_header_le (short long : UInt8) {n : ℕ} (fits : n < 2 ^ 64) :
    (header short long n).length ≤ 9 := by
  unfold header
  split_ifs
  · norm_num
  · have := length_minimal_of_lt fits
    rw [length_cons]
    omega

theorem length_encode_str {bs : Bytes} (h : bs.length ≤ 32) : (Item.str bs).encode.length ≤ 33 := by
  rw [Item.encode, encodeString]
  split_ifs
  · omega
  · rw [length_append, header_short (by omega), length_singleton]
    omega

theorem length_encodeAll_le {c : ℕ} {xs ys : List Item}
    (h : List.Forall₂ (fun x y => x.encode.length ≤ y.encode.length + c) xs ys) :
    (encodeAll xs).length ≤ (encodeAll ys).length + c * xs.length := by
  induction h with
  | nil => simp
  | cons hx _ ih =>
    simp only [encodeAll, length_append, length_cons]
    rw [Nat.mul_succ]
    omega

theorem fits_of_close {d' : TxData}
    (h : List.Forall₂ (fun x y => x.encode.length ≤ y.encode.length + 33) d'.items d.items)
    (fits : (Item.list d.items).Fits (2 ^ 63)) : (Item.list d'.items).Fits (2 ^ 64) := by
  have le := length_encodeAll_le h
  have eleven : d'.items.length = 11 := rfl
  have short := fits.1
  apply Item.fits_of_encode
  rw [Item.encode, encodeList, length_append]
  have := length_header_le 0xC0 0xF7 (n := (encodeAll d'.items).length) (by omega)
  omega

/-! ## Encoded pairs -/

/-- No other data has the hash. -/
def DataFree (d₀ : TxData) : Prop :=
  ∀ d : TxData, rlpHash keccak d.writer = rlpHash keccak d₀.writer →
    encodeWith d.writer = encodeWith d₀.writer

/-- The two transactions have no second preimage and half the size an encoding may have, and the
empty string does not hash to zero. -/
structure PairIdeal (keccak : Bytes → Hash) (main companion : TxData) : Prop where
  empty : keccak [] ≠ 0
  main_free : main.Encodable → DataFree keccak main
  main_fits : main.Encodable → (Item.list main.items).Fits (2 ^ 63)
  companion_free : companion.Encodable → DataFree keccak companion
  companion_fits : companion.Encodable → (Item.list companion.items).Fits (2 ^ 63)

section Encoded

variable {C : Crypto} {keccak : Bytes → Hash}

theorem items_of_rlpHash {d₀ : TxData} (free : DataFree keccak d₀) (encodable : d₀.Encodable)
    (fits₀ : (Item.list d₀.items).Fits (2 ^ 63)) (fits : (Item.list d.items).Fits (2 ^ 64))
    (h : rlpHash keccak d.writer = rlpHash keccak d₀.writer) : d.items = d₀.items := by
  have wide : (Item.list d₀.items).Fits (2 ^ 64) := Item.Fits.mono (by norm_num) fits₀
  have enc := free d h
  rw [encodeWith_of_writes (TxData.writes_writer encodable) wide] at enc
  have encodable' : d.Encodable := by
    by_contra hd
    rw [encodeWith_of_fails (TxData.fails_writer hd)] at enc
    cases enc
  rw [encodeWith_of_writes (TxData.writes_writer encodable') fits] at enc
  exact Item.list.inj (encode_inj fits wide (Except.ok.inj enc))

theorem length_numberItem_le {n : ℕ} (h : n < 256 ^ 32) : (numberItem n).encode.length ≤ 33 :=
  length_encode_str (length_minimal_le.2 h)

theorem short_le {x y : Item} (h : x.encode.length ≤ 33) : x.encode.length ≤ y.encode.length + 33 :=
  h.trans (Nat.le_add_left _ _)

@[simp] theorem same_le (x : Item) : x.encode.length ≤ x.encode.length + 33 := Nat.le_add_right _ _

theorem reference_of_hash (ref : Ref 256) (h : Hash) (hd : d.refHashId = some ref)
    (free : DataFree keccak d) (encodable : d.Encodable) (fits : (Item.list d.items).Fits (2 ^ 63))
    (heq : rlpHash keccak { d with refHashId := some (.fresh h) }.writer = rlpHash keccak d.writer) :
    h = ref.value := by
  have close : List.Forall₂ (fun x y => x.encode.length ≤ y.encode.length + 33)
      { d with refHashId := some (.fresh h) }.items d.items := by
    have short : (pointerItem (some (hashBytes h))).encode.length ≤ 33 :=
      length_encode_str (length_hashBytes h).le
    simp only [TxData.items, forall₂_cons, same_le, forall₂_nil_left_iff, and_true, true_and]
    exact short_le short
  have items := items_of_rlpHash free encodable fits (fits_of_close close fits) heq
  simp only [TxData.items, cons.injEq] at items
  have href := (pointerItem_inj hashBytes_injective hashBytes_ne_nil).1 items.2.1
  rw [hd] at href
  exact some.inj href

theorem signature_of_hash {k : C.Key} {r s v : ℤ} (hr : d.r = 0)
    (ht : t = { data := { d with r := r, s := s, v := v } })
    (hs : SignedBy C (newChainSigner (some 1)) k t)
    (free : DataFree keccak d) (encodable : d.Encodable) (fits : (Item.list d.items).Fits (2 ^ 63)) :
    rlpHash keccak t.data.writer ≠ rlpHash keccak d.writer := by
  intro heq
  obtain ⟨sig, r', s', v', hsig, -, hr', hs', hv'⟩ := hs
  subst ht
  subst hr' hs' hv'
  have hr' : r' < 256 ^ 32 := by exact_mod_cast hsig.r_lt.trans secp256k1N_lt
  have hs' : s' < 256 ^ 32 := by exact_mod_cast (hsig.s_le.trans_lt halfN_lt).trans secp256k1N_lt
  have hv' : (valueV (newChainSigner (some 1)).chainId v'.toNat).natAbs < 256 ^ 32 := by
    have := toNat_v hsig.v_le
    change (2 * 1 + 35 + (v'.toNat : ℤ)).natAbs < _
    omega
  have close : List.Forall₂ (fun x y => x.encode.length ≤ y.encode.length + 33)
      { d with
        r := (r' : ℤ), s := (s' : ℤ), v := valueV (newChainSigner (some 1)).chainId v'.toNat }.items
      d.items := by
    simp only [TxData.items, forall₂_cons, same_le, forall₂_nil_left_iff, and_true, true_and]
    exact ⟨short_le (length_numberItem_le hv'), short_le (length_numberItem_le hr'),
      short_le (length_numberItem_le hs')⟩
  have items := items_of_rlpHash free encodable fits (fits_of_close close fits) heq
  simp only [TxData.items, cons.injEq] at items
  have zero := numberItem_inj.1 items.2.2.2.2.2.2.2.2.2.1
  rw [hr, Int.natAbs_natCast] at zero
  exact absurd zero hsig.r_pos.ne'

end Encoded

section Main

variable {C : Crypto} {o : Order}

theorem unwrittenPair_create {keccak : Bytes → Hash} (names : NamesDApp o.dappId)
    (negative : o.gasPrice.getD 0 < 0) : UnwrittenPair keccak (o.create keccak) := by
  rw [Order.create_eq keccak names]
  have hc : rlpHash keccak o.companion.writer = keccak [] := rlpHash_of_negative negative
  have hm : rlpHash keccak (o.main keccak).writer = keccak [] := rlpHash_of_negative negative
  refine ⟨⟨negative, ?_⟩, congrArg hashBytes hc, ?_⟩
  · rintro h hh
    cases hh
    exact hm
  · rintro d hd
    cases hd
    refine ⟨⟨negative, ?_⟩, congrArg some hm⟩
    rintro h hh
    cases hh
    exact hc

theorem main_hash_of_hashed {keccak : Bytes → Hash}
    (ideal : PairIdeal keccak (o.main keccak) o.companion)
    (price : 0 ≤ o.gasPrice.getD 0) (h : Hashed keccak (o.created keccak)) :
    rlpHash keccak (o.main keccak).writer = 0 := by
  have encodable : o.companion.Encodable := ⟨price, le_rfl, le_rfl, le_rfl, le_rfl⟩
  exact reference_of_hash .empty _ rfl (ideal.companion_free encodable) encodable
    (ideal.companion_fits encodable) h.symm

/-- A pair is bound in every state of every run, if and only if its price is negative, so that
nothing is encoded. -/
theorem pair_bound_iff [Nonempty C.Key] (law : C.Lawful) (names : NamesDApp o.dappId)
    (ideal : PairIdeal C.keccak (o.main C.keccak) o.companion) :
    (∀ calls, Runs.Always (call C) (PairsBound C.keccak) [o.create C.keccak] calls) ↔
      o.gasPrice.getD 0 < 0 := by
  constructor
  · intro bound
    by_contra negative
    have price : 0 ≤ o.gasPrice.getD 0 := not_lt.1 negative
    have created := Order.create_eq C.keccak names
    have hzero : rlpHash C.keccak (o.main C.keccak).writer = 0 := by
      refine main_hash_of_hashed ideal price ((bound []).2 _ mem_cons_self _ (.inr ?_))
      rw [created]
    have encodable : (o.main C.keccak).Encodable := by
      by_contra hm
      rw [rlpHash_of_fails (TxData.fails_writer hm)] at hzero
      exact ideal.empty hzero
    -- the pair is signed, and the reference of the companion is still to the unsigned main
    -- transaction
    obtain ⟨k⟩ := ‹Nonempty C.Key›
    obtain ⟨signed, hsign, -, settled⟩ :=
      signTx_chain law (newChainSigner (some 1)) k (o.create C.keccak)
    have step : call C [o.create C.keccak] (.sign 0 (.chain (newChainSigner (some 1))) k) =
        some [o.create C.keccak, signed] := by
      unfold call
      dsimp only [getElem?_cons_zero]
      rw [hsign]
      rfl
    have after : PairsBound C.keccak [o.create C.keccak, signed] :=
      (bound [.sign 0 (.chain (newChainSigner (some 1))) k]).2 _ step
    obtain ⟨hmain, -, hcompanion⟩ := signTx_parts hsign
    obtain ⟨d', hd', hd⟩ := hcompanion (o.created C.keccak) (by rw [created]; rfl)
    obtain ⟨r, s, v, hmain⟩ := signOne_data hmain
    obtain ⟨r', s', v', rfl⟩ := signOne_data hd
    have href := (after.1 signed mem_cons_self _ hd').2
    have hash : (signed.toTx.hash C.keccak).1 = rlpHash C.keccak signed.data.writer := by
      rw [hmain]
      rfl
    rw [hash] at href
    rw [created] at hmain
    exact signature_of_hash rfl hmain settled.main (ideal.main_free encodable) encodable
      (ideal.main_fits encodable) (some.inj href).symm
  · intro negative calls
    apply Runs.always_of_invariant (I := fun txs => ∀ tx ∈ txs, UnwrittenPair C.keccak tx)
    · intro txs c txs' h step
      exact call_unwritten h step
    · intro txs h
      exact pairsBound_of_unwritten h
    · intro tx htx
      rw [mem_singleton.1 htx]
      exact unwrittenPair_create names negative

end Main

/-- There is no gas price. -/
def freeOrder : Order := ⟨some (.fresh 7), 0, some .empty, some 0, 0, none, []⟩

/-- A hash that tells the two transactions of this order from everything else. -/
def freeHash (b : Bytes) : Hash :=
  if b = (Item.list freeOrder.companion.items).encode then 1
  else if b = (Item.list (freeOrder.main fun _ => 1).items).encode then 2
  else 3

/-- The scheme with this hash. -/
def freeCrypto : Crypto := { toyCrypto with keccak := freeHash }

theorem freeOrder_ideal : PairIdeal freeHash (freeOrder.main freeHash) freeOrder.companion := by
  have free {d : TxData} (encodable : d.Encodable) (fits : (Item.list d.items).Fits (2 ^ 63))
      (unique : ∀ b, freeHash b = freeHash (Item.list d.items).encode →
        b = (Item.list d.items).encode) : DataFree freeHash d :=
    fun _ => encodeWith_of_rlpHash (encodeWith_of_writes (TxData.writes_writer encodable)
      (Item.Fits.mono (by norm_num) fits)) (encode_ne_nil _) unique
  have companion : (Item.list freeOrder.companion.items).Fits (2 ^ 63) :=
    Item.fits_of_encode (by decide +kernel)
  have main : (Item.list (freeOrder.main fun _ => 1).items).Fits (2 ^ 63) :=
    Item.fits_of_encode (by decide +kernel)
  have one : freeHash (Item.list freeOrder.companion.items).encode = 1 := by decide +kernel
  have two : freeHash (Item.list (freeOrder.main fun _ => 1).items).encode = 2 := by decide +kernel
  have same : freeOrder.main freeHash = freeOrder.main fun _ => 1 := by
    have writes := TxData.writes_writer (d := freeOrder.companion) (by decide)
    have wide := Item.Fits.mono (by norm_num : 2 ^ 63 ≤ 2 ^ 64) companion
    rw [Order.main, rlpHash_of_writes writes wide, one, Order.main, rlpHash_of_writes writes wide]
  rw [same]
  have told (b : Bytes) : (freeHash b = 1 → b = (Item.list freeOrder.companion.items).encode) ∧
      (freeHash b = 2 → b = (Item.list (freeOrder.main fun _ => 1).items).encode) := by
    unfold freeHash
    split_ifs <;> simp [*]
  exact ⟨by decide +kernel, fun h => free h main fun b hb => (told b).2 (hb.trans two), fun _ => main,
    fun h => free h companion fun b hb => (told b).1 (hb.trans one), fun _ => companion⟩

theorem pair_bound_free : PairIdeal freeHash (freeOrder.main freeHash) freeOrder.companion ∧
    ¬ ∀ calls, Runs.Always (call freeCrypto) (PairsBound freeHash) [freeOrder.create freeHash]
      calls := by
  have key : Nonempty freeCrypto.Key := ⟨(5 : UInt8)⟩
  have law : freeCrypto.Lawful := ⟨toyCrypto_lawful.uncompressed, toyCrypto_lawful.sign⟩
  exact ⟨freeOrder_ideal, (pair_bound_iff law (by decide) freeOrder_ideal).not.2 (by decide)⟩

theorem pair_not_bound :
    (signTx toyCrypto (freeOrder.create toyCrypto.keccak) (.chain (newChainSigner (some 1)))
      (5 : UInt8)).toOption.map
        (fun signed => decide
          (signed.dappTx.bind Tx.refHashId = some (signed.toTx.hash toyCrypto.keccak).1)) =
      some false ∧ (freeOrder.create toyCrypto.keccak).dappTx.map (fun d =>
      decide ((d.hash toyCrypto.keccak).1 = rlpHash toyCrypto.keccak d.data.writer)) = some false := by
  decide +kernel

end JuChain.Types
