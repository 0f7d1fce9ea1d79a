import JuChain.Pool.Reset

/-!
# Calls of a transaction list

Whatever is called, the caps bound the list, and what a strict list gives up is the part from one
nonce on.  A replacement pays the price bump, unless the bump is so large that `100 +
int64(priceBump)` wraps around.
-/

namespace JuChain.Pool.TxList

open List SortedMap Runs

/-- A call of a method of `txList`. -/
inductive Call
  | add (tx : Transaction) (priceBump : UInt64)
  | forward (threshold : ℕ)
  | filter (costLimit : ℤ) (gasLimit : UInt64)
  | cap (threshold : ℕ)
  | remove (tx : Transaction)
  | ready (start : ℕ)

/-- The list after a call. -/
def call (l : TxList) : Call → Option TxList
  | .add tx priceBump => some (((l.add tx priceBump).map (·.1)).getD l)
  | .forward threshold => some (l.forward threshold).2
  | .filter costLimit gasLimit => some (l.filter costLimit gasLimit).2.2
  | .cap threshold => some (l.cap threshold).2
  | .remove tx => some (((l.remove tx).map (·.2)).getD l)
  | .ready start => some (l.ready start).2

/-- The caps bound all transactions. -/
def Capped (l : TxList) : Prop := ∀ tx ∈ l.txs, tx.cost ≤ l.costcap ∧ tx.gas ≤ l.gascap

/-- The transactions `out` are taken out, and those that stay have lower nonces. -/
def CutsOff (l : TxList) (out : List Transaction) (rest : TxList) : Prop :=
  l.Parts out rest ∧ ∀ x ∈ out, ∀ y ∈ rest.txs, y.nonce < x.nonce

/-- What is claimed of the results of a call. -/
def Kept (l : TxList) : Call → Prop
  | .filter costLimit gasLimit =>
    let (removed, invalids, rest) := l.filter costLimit gasLimit
    (∀ x ∈ removed, exceeds costLimit gasLimit x) ∧
      (∀ x ∈ rest.txs, exceeds costLimit gasLimit x = false) ∧
      (l.strict → l.CutsOff (removed ++ invalids) rest)
  | .remove tx => ∀ invalids rest, l.remove tx = some (invalids, rest) → l.strict →
    ∃ old, old.nonce = tx.nonce ∧ l.CutsOff (old :: invalids) rest
  | .add tx priceBump => ∀ l' old, l.add tx priceBump = some (l', some old) →
    old.gasPrice < tx.gasPrice ∧ old.gasPrice * (100 + priceBump.toNat) / 100 ≤ tx.gasPrice
  | _ => True

variable {l : TxList} {costLimit : ℤ} {gasLimit : UInt64} {tx x : Transaction} {priceBump : UInt64}

theorem exceeds_of_removed (hx : x ∈ (l.filter costLimit gasLimit).1) :
    exceeds costLimit gasLimit x := by
  unfold filter at hx
  dsimp only at hx
  split_ifs at hx
  · cases hx
  · exact (mem_split_fst.1 hx).2
  · exact (mem_split_fst.1 hx).2

theorem cutsOff_filter (strict : l.strict) :
    l.CutsOff ((l.filter costLimit gasLimit).1 ++ (l.filter costLimit gasLimit).2.1)
      (l.filter costLimit gasLimit).2.2 := by
  have parts := parts_filter l costLimit gasLimit
  refine ⟨parts, fun x hx y hy => ?_⟩
  have hy := (mem_filter_strict strict).1 hy
  by_contra le
  -- a transaction that stays would make an earlier one stay as well
  have stays := (mem_filter_strict strict).2
    ⟨(parts.txs.mem_iff).2 (.inl hx), fun z hz low => hy.2 z hz (low.trans (not_lt.1 le))⟩
  exact parts.txs.key_ne hx stays rfl

theorem cutsOff_remove (strict : l.strict) {invalids : List Transaction} {rest : TxList}
    (h : l.remove tx = some (invalids, rest)) :
    ∃ old, old.nonce = tx.nonce ∧ l.CutsOff (old :: invalids) rest := by
  by_cases here : l.overlaps tx
  · obtain ⟨old, held, same⟩ := overlaps_iff.1 here
    obtain ⟨invalids', rest', removed, parts, later, -⟩ := remove_of_mem held
    have again : l.remove old = l.remove tx := by
      unfold remove overlaps
      simp only [same]
    rw [again, h] at removed
    cases removed
    obtain ⟨above, below⟩ := later strict
    refine ⟨old, same, parts, fun x hx y hy => ?_⟩
    have := below y hy
    rcases mem_cons.1 hx with rfl | hx
    · exact this
    · exact this.trans (above x hx)
  · rw [remove, if_neg here] at h
    cases h

/-! ## The price bump -/

theorem toInt_bump (priceBump : UInt64) :
    (100 + priceBump.toInt64).toInt = (100 + priceBump.toNat : ℤ).bmod (2 ^ 64) := by
  have signed : priceBump.toInt64.toInt = (priceBump.toNat : ℤ).bmod (2 ^ 64) :=
    BitVec.toInt_eq_toNat_bmod _
  rw [Int64.toInt_add, signed, Int.add_bmod_bmod]
  rfl

theorem bump_eq (small : priceBump.toNat + 100 < 2 ^ 63) :
    (100 + priceBump.toInt64).toInt = 100 + priceBump.toNat := by
  rw [toInt_bump, Int.bmod_def]
  split_ifs <;> omega

theorem bump_lt (large : 2 ^ 63 ≤ priceBump.toNat + 100) : (100 + priceBump.toInt64).toInt < 100 := by
  have lt := priceBump.toNat_lt
  rw [toInt_bump, Int.bmod_def]
  split_ifs <;> omega

theorem paid (small : priceBump.toNat + 100 < 2 ^ 63) {l' : TxList} {old : Transaction}
    (h : l.add tx priceBump = some (l', some old)) :
    old.gasPrice < tx.gasPrice ∧ old.gasPrice * (100 + priceBump.toNat) / 100 ≤ tx.gasPrice := by
  unfold add at h
  dsimp only at h
  split_ifs at h with refused
  obtain ⟨-, got⟩ := Prod.mk.inj (Option.some.inj h)
  rw [got] at refused
  simpa [outbids, bump_eq small] using refused

theorem kept_call (c : Call) (small : ∀ tx b, c = .add tx b → b.toNat + 100 < 2 ^ 63) : l.Kept c := by
  cases c with
  | add tx priceBump => exact fun _ _ => paid (small tx priceBump rfl)
  | filter costLimit gasLimit =>
    exact ⟨fun x => exceeds_of_removed, fun x => exceeds_of_mem_filter, cutsOff_filter⟩
  | remove tx => exact fun _ _ h strict => cutsOff_remove strict h
  | forward | cap | ready => trivial

/-- The replacement of a transaction of price 1 by one of price 2. -/
def bidding (priceBump : UInt64) : List Call :=
  [.add (sampleTx 1 1 0 1) priceBump, .add (sampleTx 2 1 0 2) priceBump]

theorem not_kept_bidding (large : 2 ^ 63 ≤ priceBump.toNat + 100) (strict : Bool) :
    ¬Throughout call Kept (newTxList strict) (bidding priceBump) := by
  intro h
  have first : (newTxList strict).add (sampleTx 1 1 0 1) priceBump =
      some ((newTxList strict).put (sampleTx 1 1 0 1), none) :=
        add_of_free (fun y hy => absurd hy (notMem_empty y)) _
  have held : sampleTx 1 1 0 1 ∈ ((newTxList strict).put (sampleTx 1 1 0 1)).txs := mem_put.2 (.inl rfl)
  have same : (sampleTx 1 1 0 1).nonce = (sampleTx 2 1 0 2).nonce := rfl
  have next := add_of_held held same priceBump
  have wrapped := bump_lt large
  have enough : outbids priceBump (sampleTx 1 1 0 1) (sampleTx 2 1 0 2) = false := by
    simp only [outbids, sampleTx, one_mul, decide_eq_false_iff_not]
    omega
  rw [if_neg (Bool.not_eq_true _ ▸ enough)] at next
  have kept := (h.2 _ (by rw [call, first]; rfl)).1 _ _ next
  simp only [sampleTx, one_mul] at kept
  omega

/-- The calls are right exactly for bumps that cannot wrap. -/
theorem calls_kept_iff (bumps : Set UInt64) :
    (∀ strict calls, (∀ tx b, .add tx b ∈ calls → b ∈ bumps) →
      Always call Capped (newTxList strict) calls ∧ Throughout call Kept (newTxList strict) calls) ↔
      ∀ b ∈ bumps, b.toNat + 100 < 2 ^ 63 := by
  constructor
  · intro h b hb
    by_contra large
    refine not_kept_bidding (not_lt.1 large) true (h true _ fun tx b' hmem => ?_).2
    simp only [bidding, mem_cons, Call.add.injEq, not_mem_nil, or_false] at hmem
    rcases hmem with ⟨-, rfl⟩ | ⟨-, rfl⟩ <;> exact hb
  · intro small strict calls allowed
    refine ⟨always_of_invariant (I := fun _ => True) (fun _ _ _ _ _ => trivial)
      (fun l _ tx htx => ⟨l.cost_le tx htx, l.gas_le tx htx⟩) trivial calls, ?_⟩
    generalize newTxList strict = l
    induction calls generalizing l with
    | nil => trivial
    | cons c calls ih =>
      refine ⟨kept_call c fun tx b hc => small b (allowed tx b (hc ▸ mem_cons_self)),
        fun t _ => ih ?_ t⟩
      exact fun tx b hmem => allowed tx b (mem_cons_of_mem c hmem)

/-- With a bump of `2 ^ 63` the second transaction replaces the first one. -/
theorem bidding_replaces : ¬Throughout call Kept (newTxList true) (bidding 9223372036854775808) :=
  not_kept_bidding (by decide) true

end JuChain.Pool.TxList
