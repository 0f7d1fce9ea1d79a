import JuChain.Clique.Snapshot

/-!
# Verified headers and the next snapshot

Below the limit the unsigned subtraction of `verifySeal` wraps around, so that a recent signer is
let through, and `verifySeal` does not look at the vote in the nonce.  Apart from this it agrees
with `apply` (`sealed_applies_iff`).
-/

namespace JuChain.Clique

open JuChain.Types Slices List UInt64 Except Prod

/-- The nonce is a vote. -/
def ValidNonce (nonce : BlockNonce) : Prop := nonce = nonceAuthVote ∨ nonce = nonceDropVote

namespace Snapshot

section Apply

variable {C : Crypto} {s s' : Snapshot} {sigcache sigcache' : SigCache} {h : Types.Header}
  {n : UInt64} {m : ℕ}

theorem authorizes_ok_iff {nonce : BlockNonce} :
    (∃ b, authorizes nonce = .ok b) ↔ ValidNonce nonce := by
  unfold authorizes ValidNonce
  split_ifs <;> simp_all

theorem mapError_eq_ok {ε δ α : Type} {f : ε → δ} {r : Except ε α} {a : α} :
    r.mapError f = .ok a ↔ r = .ok a := by
  cases r <;> simp [Except.mapError]

theorem applyHeader_eq_ok :
    s.applyHeader C sigcache h = .ok (s', sigcache') ↔ ∃ n signer authorize, headerNumber h = .ok n ∧
      (ecrecover C sigcache h).1 = .ok signer ∧ signer ∈ s.signers ∧
        signer ∉ (s.shiftOut n).recents.map Prod.snd ∧ authorizes h.nonce = .ok authorize ∧
      s' =
        (((((s.checkpoint n).shiftOut n).remember n signer).discardPrevious signer
          h.coinbase).tallyUp n signer h.coinbase
        authorize) ∧ sigcache' = (ecrecover C sigcache h).2 := by
  have seats (n : UInt64) : (s.shiftOut n).SameSeats ((s.checkpoint n).shiftOut n) :=
  (sameSeats_checkpoint s n).shiftOut n
  unfold applyHeader
  simp only [bind_eq_ok, mapError_eq_ok]
  constructor
  · rintro ⟨n, hn, signer, hr, ok⟩
    rw [(seats n).1, (seats n).2, signers_shiftOut] at ok
    split_ifs at ok with hs hrec
    obtain ⟨b, hb, heq⟩ := bind_eq_ok.1 ok
    obtain ⟨rfl, rfl⟩ := Prod.mk.inj (Except.ok.inj heq)
    exact ⟨n, signer, b, hn, hr, hs, hrec, hb, rfl, rfl⟩
  · rintro ⟨n, signer, b, hn, hr, hs, hrec, hb, rfl, rfl⟩
    refine ⟨n, hn, signer, hr, ?_⟩
    rw [(seats n).1, (seats n).2, signers_shiftOut, if_neg (not_not.2 hs), if_neg hrec, hb]
    rfl

theorem applyHeader_ok_iff (hc : Faithful C sigcache) (hn : headerNumber h = .ok n) :
    (∃ r, s.applyHeader C sigcache h = .ok r) ↔ ∃ signer, recover C h = .ok signer ∧
      signer ∈ s.signers ∧ signer ∉ (s.shiftOut n).recents.map Prod.snd ∧ ValidNonce h.nonce := by
  constructor
  · rintro ⟨⟨s', sigcache'⟩, ok⟩
    obtain ⟨n', signer, b, hn', hr, hs, hrec, hb, -⟩ := applyHeader_eq_ok.1 ok
    rw [hn, Except.ok.injEq] at hn'
    subst hn'
    rw [hc.ecrecover_eq] at hr
    exact ⟨signer, hr, hs, hrec, authorizes_ok_iff.1 ⟨b, hb⟩⟩
  · rintro ⟨signer, hr, hs, hrec, hv⟩
    obtain ⟨b, hb⟩ := authorizes_ok_iff.2 hv
    rw [← hc.ecrecover_eq] at hr
    exact ⟨_, applyHeader_eq_ok.2 ⟨n, signer, b, hn, hr, hs, hrec, hb, rfl, rfl⟩⟩

theorem Recent.applyHeader (hr : s.Recent m) (hn : headerNumber h = .ok n)
    (next : n.toNat = m + 1) (ok : s.applyHeader C sigcache h = .ok (s', sigcache')) :
    s'.Recent (m + 1) := by
  obtain ⟨n', signer, b, hn', -, -, -, -, rfl, -⟩ := applyHeader_eq_ok.1 ok
  rw [hn, Except.ok.injEq] at hn'
  subst hn'
  have shifted : ((s.checkpoint n).shiftOut n).Recent n.toNat := by
    rw [next]
    exact ((sameSeats_checkpoint s n).recent hr).shiftOut next
  rw [← next]
  exact ((sameSeats_discardPrevious _ _ _).recent (shifted.remember signer)).tallyUp _ _ _

end Apply

/-! ## Runs of headers -/

/-- The headers have the numbers after `n`. -/
def Numbered : UInt64 → List Types.Header → Prop
  | _, [] => True
  | n, h :: hs => headerNumber h = .ok (n + 1) ∧ Numbered (n + 1) hs

/-- The headers have the numbers after `n`, as naturals. -/
def Follows : ℕ → List Types.Header → Prop
  | _, [] => True
  | n, h :: hs => (∃ k, headerNumber h = .ok k ∧ k.toNat = n + 1) ∧ Follows (n + 1) hs

section Runs

variable {C : Crypto} {s s' : Snapshot} {sigcache sigcache' : SigCache} {n : UInt64}

theorem toNat_succ (h : n + 1 ≠ 0) : (n + 1).toNat = n.toNat + 1 := by
  have lt := n.toNat_lt
  have ne : (n + 1).toNat ≠ 0 := fun h' => h (UInt64.toNat_inj.1 h')
  rw [UInt64.toNat_add, UInt64.toNat_one] at ne ⊢
  omega

variable {h : Types.Header} {hs : List Types.Header}

theorem numbered_of_checkPairs (pairs : checkPairs (h :: hs) = .ok ())
    (first : headerNumber h = .ok (n + 1)) : Numbered n (h :: hs) := by
  refine ⟨first, ?_⟩
  induction hs generalizing n h with
  | nil => trivial
  | cons b hs ih =>
    obtain ⟨k, hk, pairs⟩ := bind_eq_ok.1 pairs
    obtain ⟨k', hk', pairs⟩ := bind_eq_ok.1 pairs
    split_ifs at pairs with consecutive
    obtain rfl := Except.ok.inj (first.symm.trans hk')
    rw [not_not.1 consecutive] at hk
    exact ⟨hk, ih pairs hk⟩

theorem Numbered.follows (numbered : Numbered n hs) (mined : ∀ b ∈ hs, headerNumber b ≠ .ok 0) :
    Follows n.toNat hs := by
  induction hs generalizing n with
  | nil => trivial
  | cons h hs ih =>
    have next : (n + 1).toNat = n.toNat + 1 :=
      toNat_succ fun zero => mined h mem_cons_self (zero ▸ numbered.1)
    refine ⟨⟨n + 1, numbered.1, next⟩, ?_⟩
    rw [← next]
    exact ih numbered.2 fun b hb => mined b (mem_cons_of_mem h hb)

theorem Recent.applyLoop {m : ℕ} (hr : s.Recent m) (hf : Follows m hs)
    (ok : s.applyLoop C sigcache hs = .ok (s', sigcache')) : s'.Recent (m + hs.length) := by
  induction hs generalizing m s sigcache with
  | nil =>
    cases ok
    exact hr
  | cons h hs ih =>
    obtain ⟨⟨k, hk, next⟩, hf⟩ := hf
    obtain ⟨⟨t, sigcache₁⟩, step, ok⟩ := bind_eq_ok.1 ok
    have run := ih (hr.applyHeader hk next step) hf ok
    rwa [length_cons, Nat.add_comm hs.length 1, ← Nat.add_assoc]

theorem Follows.lt {m : ℕ} (hf : Follows m hs) (small : m < 2 ^ 64) : m + hs.length < 2 ^ 64 := by
  induction hs generalizing m with
  | nil => exact small
  | cons h hs ih =>
    obtain ⟨⟨k, -, next⟩, hf⟩ := hf
    have := ih hf (next ▸ k.toNat_lt)
    rw [length_cons]
    omega

theorem apply_eq_ok (ok : s.apply C sigcache hs = .ok (s', sigcache')) :
    Numbered s.number hs ∧ ∃ t, s.applyLoop C sigcache hs = .ok (t, sigcache') ∧
      s' = { t with
        number := s.number + ofNat hs.length
        hash := hs.getLast?.elim s.hash (Types.Header.hash C.keccak) } := by
  cases hs with
  | nil =>
    obtain ⟨rfl, rfl⟩ := Prod.mk.inj (Except.ok.inj ok)
    exact ⟨trivial, s, rfl, by simp⟩
  | cons h hs =>
    obtain ⟨_, pairs, ok⟩ := bind_eq_ok.1 ok
    obtain ⟨first, hfirst, ok⟩ := bind_eq_ok.1 ok
    split_ifs at ok with next
    obtain ⟨⟨t, sigcache₁⟩, loop, eq⟩ := bind_eq_ok.1 ok
    obtain ⟨rfl, rfl⟩ := Prod.mk.inj (Except.ok.inj eq)
    exact ⟨numbered_of_checkPairs pairs (not_not.1 next ▸ hfirst), t, loop,
      by rw [getLast?_eq_some_getLast]; rfl⟩

theorem Recent.apply (hr : s.Recent s.number.toNat) (mined : ∀ h ∈ hs, headerNumber h ≠ .ok 0)
    (ok : s.apply C sigcache hs = .ok (s', sigcache')) : s'.Recent s'.number.toNat := by
  obtain ⟨numbered, t, loop, rfl⟩ := apply_eq_ok ok
  have hf := numbered.follows mined
  have run := hr.applyLoop hf loop
  have small := hf.lt s.number.toNat_lt
  have number : (s.number + ofNat hs.length).toNat = s.number.toNat + hs.length := by
    rw [UInt64.toNat_add, UInt64.toNat_ofNat', Nat.add_mod_mod, Nat.mod_eq_of_lt small]
  exact number ▸ run

theorem apply_singleton_eq (next : headerNumber h = .ok (s.number + 1)) :
    s.apply C sigcache [h] = s.applyHeader C sigcache h >>= fun r =>
      .ok ({ r.1 with number := s.number + 1, hash := h.hash C.keccak }, r.2) := by
  simp only [apply, checkPairs, next, ok_bind, ne_eq, not_true_eq_false, if_false, applyLoop,
    length_singleton, getLast_singleton]
  cases s.applyHeader C sigcache h <;> rfl

theorem apply_singleton (next : headerNumber h = .ok (s.number + 1)) :
    (∃ r, s.apply C sigcache [h] = .ok r) ↔ ∃ r, s.applyHeader C sigcache h = .ok r := by
  rw [apply_singleton_eq next]
  cases s.applyHeader C sigcache h <;> simp

end Runs

/-- The snapshots that the engine makes: the genesis one, and those of `apply`. -/
inductive Reachable (C : Crypto) : Snapshot → Prop
  | genesis (config : Config) (hash : Hash) (signers : List Address) : Reachable C
    (new config 0 hash signers)
  | apply {s s' : Snapshot} {sigcache sigcache' : SigCache} {hs : List Types.Header}
    (earlier : Reachable C s)
      (mined : ∀ h ∈ hs, headerNumber h ≠ .ok 0)
        (ok : s.apply C sigcache hs = .ok (s', sigcache')) : Reachable C s'

theorem Reachable.recent {C : Crypto} {s : Snapshot} (reach : Reachable C s) :
    s.Recent s.number.toNat := by
  induction reach with
  | genesis config hash signers => exact fun e he => absurd he not_mem_nil
  | apply earlier mined ok ih => exact ih.apply mined ok

end Snapshot

section Verify

variable {C : Crypto} {s : Snapshot} {sigcache sigcache' sigcache₁ : SigCache} {h : Types.Header}
  {signer : Address}
  {n : UInt64}

theorem verifySeal_signer (hc : Faithful C sigcache) (hn : headerNumber h = .ok n)
    (accepted : verifySeal C s sigcache h = .ok sigcache₁) :
    n ≠ 0 ∧ ∃ signer, recover C h = .ok signer ∧ signer ∈ s.signers ∧
      ∀ e ∈ s.recents, e.2 = signer → e.1 ≤ n - ofNat s.limit := by
  unfold verifySeal at accepted
  rw [hn, ok_bind, hc.ecrecover_eq] at accepted
  split_ifs at accepted with zero
  obtain ⟨signer, hr, accepted⟩ := bind_eq_ok.1 accepted
  split_ifs at accepted with hs late
  refine ⟨zero, signer, Snapshot.mapError_eq_ok.1 hr, hs, fun e he same => ?_⟩
  exact UInt64.not_lt.1 fun lt => late ⟨e, he, same, lt⟩

theorem notMem_shiftOut (hr : s.Recent s.number.toNat) (hn : n.toNat = s.number.toNat + 1)
    (le : s.limit ≤ n.toNat) (early : ∀ e ∈ s.recents, e.2 = signer → e.1 ≤ n - ofNat s.limit) :
    signer ∉ (s.shiftOut n).recents.map Prod.snd := by
  intro hm
  obtain ⟨e, he, rfl⟩ := List.mem_map.1 hm
  obtain ⟨he, ne⟩ := Snapshot.mem_shiftOut.1 he
  have lt := n.toNat_lt
  have sub : (n - ofNat s.limit).toNat = n.toNat - s.limit := by
    have limit : (ofNat s.limit).toNat = s.limit := by
      rw [toNat_ofNat', Nat.mod_eq_of_lt (by omega)]
    rw [UInt64.toNat_sub_of_le _ _ (UInt64.le_iff_toNat_le.2 (limit.symm ▸ le)), limit]
  have first := le_iff_toNat_le.1 (early e he rfl)
  obtain ⟨-, recent⟩ := hr e he
  omega

/-- A next header that `verifySeal` accepts can be applied if and only if its nonce is a vote and,
below the limit, its signer is not a recent one. -/
theorem sealed_applies_iff (reach : s.Reachable C) (hc : Faithful C sigcache)
    (hc' : Faithful C sigcache')
    (next : headerNumber h = .ok (s.number + 1)) (hs : recover C h = .ok signer)
    (accepted : verifySeal C s sigcache h = .ok sigcache₁) :
    (∃ r, s.apply C sigcache' [h] = .ok r) ↔
      ValidNonce h.nonce ∧ (s.limit ≤ s.number.toNat + 1 ∨ signer ∉ s.recents.map Prod.snd) := by
  obtain ⟨zero, signer', hs', member, early⟩ := verifySeal_signer hc next accepted
  rw [hs, ok.injEq] at hs'
  subst hs'
  have succ := Snapshot.toNat_succ zero
  have shifted : signer ∉ (s.shiftOut (s.number + 1)).recents.map snd ↔
      s.limit ≤ s.number.toNat + 1 ∨ signer ∉ s.recents.map snd := by
    by_cases le : s.limit ≤ s.number.toNat + 1
    · exact iff_of_true (notMem_shiftOut reach.recent succ (succ.symm ▸ le) early) (.inl le)
    · rw [Snapshot.shiftOut, if_neg (succ.symm ▸ le), or_iff_right le]
  rw [Snapshot.apply_singleton next, Snapshot.applyHeader_ok_iff hc' next, ← shifted]
  constructor
  · rintro ⟨t, ht, -, hrec, hv⟩
    rw [hs, ok.injEq] at ht
    exact ⟨hv, ht ▸ hrec⟩
  · rintro ⟨hv, hrec⟩
    exact ⟨signer, hs, member, hrec, hv⟩

end Verify

/-! ## Five signers -/

/-- A curve where the first byte of a signature is the address of who signed. -/
def plainCrypto : Crypto where
  Key := UInt8
  keccak bs := BitVec.ofNat 256 (BigEndian.value (bs.take 1))
  sign _ k := .ok (k :: List.replicate 64 0)
  ecrecover _ sig := .ok (4 :: sig.take 1)
  fromECDSAPub k := [4, k]

/-- A header of the signer, without a vote. -/
def turn (number : ℤ) (signer : UInt8) : Types.Header :=
  { Types.Header.zero with
    difficulty := some diffNoTurn, number := some number, time := some 0
    extra := List.replicate 32 0 ++ signer :: List.replicate 64 0 }

/-- An empty cache. -/
def noCache : SigCache := fun _ => none

theorem faithful_noCache (C : Crypto) : Faithful C noCache := by
  intro h a hit
  simp only [noCache, reduceCtorEq] at hit

/-- Five signers at the genesis block. -/
def fiveSigners : Snapshot := .new ⟨30000, by decide⟩ 0 0 [1, 2, 3, 4, 5]

/-- After the first header. -/
def afterFirst : Snapshot :=
  { fiveSigners with number := 1, hash := (turn 1 1).hash plainCrypto.keccak, recents := [(1, 1)] }

theorem reachable_afterFirst : afterFirst.Reachable plainCrypto := by
  have mined : ∀ h ∈ [turn 1 1], headerNumber h ≠ .ok 0 := by
    intro h hh
    rw [mem_singleton.1 hh]
    decide
  have ok : fiveSigners.apply plainCrypto noCache [turn 1 1] =
      .ok (afterFirst, (ecrecover plainCrypto noCache (turn 1 1)).2) := by
    rfl
  exact .apply (.genesis ⟨30000, by decide⟩ 0 [1, 2, 3, 4, 5]) mined ok

/-- Signer 1 signs blocks 1 and 2 of five signers; `verifySeal` accepts block 2 and `apply` does
not. -/
theorem signs_twice_below_limit :
    afterFirst.Reachable plainCrypto ∧ headerNumber (turn 2 1) = .ok (afterFirst.number + 1) ∧
      ValidNonce (turn 2 1).nonce ∧
      (∃ sigcache, verifySeal plainCrypto afterFirst noCache (turn 2 1) = .ok sigcache) ∧
      afterFirst.apply plainCrypto noCache [turn 2 1] = .error (.err .unauthorized) :=
  ⟨reachable_afterFirst, rfl, .inr rfl, ⟨_, rfl⟩, rfl⟩

theorem sealed_applies_second : (∃ r, afterFirst.apply plainCrypto noCache [turn 2 2] = .ok r) := by
  have accepted : ∃ sigcache, verifySeal plainCrypto afterFirst noCache (turn 2 2) = .ok sigcache :=
    ⟨_, rfl⟩
  obtain ⟨sigcache, accepted⟩ := accepted
  exact (sealed_applies_iff reachable_afterFirst (faithful_noCache _) (faithful_noCache _) rfl rfl
    accepted).2 ⟨.inr rfl, .inr (by decide)⟩

end JuChain.Clique
