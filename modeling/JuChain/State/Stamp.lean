import JuChain.State.Transition

/-!
# Executing a message twice

A block is executed by the node that packages it, which does not know its hash yet and has the gas
of failed transactions left in the pool, and by the nodes that verify it.  The block hash is only
written into the logs (`transitionDb_stamp`), and a message that succeeds with some pool does the
same with a larger one (`transitionDb_pool`).  What a failing message leaves behind is undone by
reverting to the snapshot before it (`transitionDb_rewinds`).
-/

namespace JuChain.State

open Function Option

/-! ## Changes that no operation notices -/

namespace StateDB

/-- A change of the state that the operations neither read nor undo. -/
structure Unseen (F : StateDB → StateDB) : Prop where
  objects : ∀ s, (F s).objects = s.objects
  refund : ∀ s, (F s).refund = s.refund
  append : ∀ s e, (F s).append e = F (s.append e)
  setObject : ∀ s a o, (F s).setObject a o = F (s.setObject a o)
  dirties : ∀ s, (F s).dirties = s.dirties
  setDirties : ∀ (s : StateDB) d, { F s with dirties := d } = F { s with dirties := d }
  setRefund : ∀ (s : StateDB) r, { F s with refund := r } = F { s with refund := r }
  addLog : ∀ s l, (F s).addLog l = F (s.addLog l)

namespace Unseen

variable {F : StateDB → StateDB} (unseen : Unseen F) (s : StateDB) (a : Address)

include unseen

theorem createObject : (F s).createObject a = F (s.createObject a) := by
  unfold StateDB.createObject
  rw [unseen.objects]
  cases s.objects a <;> simp only [unseen.append, unseen.setObject]

theorem withObject {f : StateDB → StateObject → StateDB} (hf : ∀ t o, f (F t) o = F (f t o)) :
    (F s).withObject a f = F (s.withObject a f) := by
  unfold StateDB.withObject getOrNew
  rw [unseen.objects]
  cases s.objects a with
  | some o => exact hf s o
  | none =>
    rw [unseen.createObject, hf]

theorem setBalance (o : StateObject) (amount : ℤ) :
    (F s).setBalance a o amount = F (s.setBalance a o amount) := by
  unfold StateDB.setBalance
  rw [unseen.append, unseen.setObject]

theorem touch : (F s).touch a = F (s.touch a) := by
  unfold StateDB.touch
  simp only [unseen.append, unseen.dirties, unseen.setDirties]
  split_ifs <;> rfl

theorem addBalance (amount : ℤ) : (F s).addBalance a amount = F (s.addBalance a amount) := by
  refine unseen.withObject s a fun t o => ?_
  unfold objectAddBalance
  rw [unseen.touch, unseen.setBalance]
  split_ifs <;> rfl

theorem subBalance (amount : ℤ) : (F s).subBalance a amount = F (s.subBalance a amount) := by
  refine unseen.withObject s a fun t o => ?_
  unfold objectSubBalance
  rw [unseen.setBalance]
  split_ifs <;> rfl

theorem setNonce (n : UInt64) : (F s).setNonce a n = F (s.setNonce a n) := by
  refine unseen.withObject s a fun t o => ?_
  unfold objectSetNonce
  rw [unseen.append, unseen.setObject]

theorem setCode (code : Bytes) : (F s).setCode a code = F (s.setCode a code) := by
  refine unseen.withObject s a fun t o => ?_
  unfold objectSetCode
  rw [unseen.append, unseen.setObject]

theorem setState (key value : Hash) : (F s).setState a key value = F (s.setState a key value) := by
  refine unseen.withObject s a fun t o => ?_
  unfold objectSetState
  rw [unseen.append, unseen.setObject]

theorem exec (op : Op) : (F s).exec op = F (s.exec op) := by
  cases op with
  | addBalance a amount => exact unseen.addBalance s a amount
  | subBalance a amount => exact unseen.subBalance s a amount
  | setNonce a n => exact unseen.setNonce s a n
  | setCode a code => exact unseen.setCode s a code
  | setState a key value => exact unseen.setState s a key value
  | suicide a =>
    show (F s).suicide a = F (s.suicide a)
    unfold suicide
    rw [unseen.objects]
    cases s.objects a <;> simp only [unseen.append, unseen.setObject]
  | createAccount a =>
    show (F s).createAccount a = F (s.createAccount a)
    unfold createAccount
    rw [unseen.createObject, unseen.objects]
    cases s.objects a <;> simp only [unseen.setObject]
  | addRefund gas =>
    show (F s).addRefund gas = F (s.addRefund gas)
    unfold addRefund
    rw [unseen.refund, unseen.append, unseen.setRefund]
  | addLog l => exact unseen.addLog s l

theorem execAll (ops : List Op) : (F s).execAll ops = F (s.execAll ops) := by
  induction ops generalizing s with
  | nil => rfl
  | cons op ops ih =>
    show ((F s).exec op).execAll ops = F ((s.exec op).execAll ops)
    rw [unseen.exec, ih]

end Unseen

end StateDB

namespace Message

variable {msg : Message} {evm : Evm} {ctx : Context} {gp gp' used : UInt64} {s : StateDB}
  {r : Applied} {failed : Bool} {F : StateDB → StateDB}

section

variable (unseen : StateDB.Unseen F)
include unseen

theorem preCheck_unseen : msg.preCheck gp (F s) = msg.preCheck gp s := by
  have nonce : (F s).getNonce msg.sender = s.getNonce msg.sender := by
    unfold StateDB.getNonce
    rw [unseen.objects]
  have balance : (F s).getBalance msg.sender = s.getBalance msg.sender := by
    unfold StateDB.getBalance
    rw [unseen.objects]
  unfold preCheck checkNonceAt
  rw [nonce, balance]

theorem beforeCall_unseen : msg.beforeCall (F s) = F (msg.beforeCall s) := by
  unfold beforeCall StateDB.getNonce
  rw [unseen.subBalance]
  simp only [unseen.objects, unseen.setNonce]
  split_ifs <;> rfl

theorem callWith_unseen (intrinsic : UInt64) :
    msg.callWith evm ctx (F s) intrinsic = msg.callWith evm ctx s intrinsic := by
  unfold callWith
  rw [beforeCall_unseen unseen, unseen.objects, unseen.refund]

theorem afterCall_unseen (intrinsic : UInt64) :
    msg.afterCall evm ctx (F s) intrinsic = F (msg.afterCall evm ctx s intrinsic) := by
  unfold afterCall
  rw [callWith_unseen unseen, beforeCall_unseen unseen, unseen.execAll]

theorem settle_unseen (gas : UInt64) : msg.settle ctx gp (F s) gas failed =
      (msg.settle ctx gp s gas failed).map fun r => { r with state := F r.state } := by
  have refund : msg.refundOf (F s) gas = msg.refundOf s gas := by
    unfold refundOf
    rw [unseen.refund]
  unfold settle
  simp only [refund, unseen.addBalance, map_map]
  rfl

theorem transitionDb_unseen : msg.transitionDb evm ctx gp (F s) =
      (msg.transitionDb evm ctx gp s).map fun r => { r with state := F r.state } := by
  unfold transitionDb
  rw [preCheck_unseen unseen]
  cases msg.preCheck gp s with
  | error e => rfl
  | ok gp₁ =>
    cases intrinsicGas msg.data msg.recipient.isNone with
    | error e => simp only [unseen.subBalance, map_some]
    | ok intrinsic =>
      dsimp only
      rw [callWith_unseen unseen, afterCall_unseen unseen, unseen.subBalance, settle_unseen unseen]
      split_ifs <;> rfl

end

end Message

/-! ## The block hash of the logs -/

/-- The log gets the hash of the block. -/
def Log.stamp (block : Hash) (l : Log) : Log := { l with blockHash := block }

namespace StateDB

/-- The state, had the hash of the block been known from the start. -/
def stamp (block : Hash) (s : StateDB) : StateDB :=
  { s with bhash := block, logs := fun h => (s.logs h).map (Log.stamp block) }

theorem unseen_stamp (block : Hash) : Unseen (stamp block) where
  objects _ := rfl
  refund _ := rfl
  append _ _ := rfl
  setObject _ _ _ := rfl
  dirties _ := rfl
  setDirties _ _ := rfl
  setRefund _ _ := rfl
  addLog s l := by
    -- The new log gets the hash from the state in one case and by the map in the other.
    have logs (h : Hash) (new : Log) :
        (update s.logs s.thash (s.logs s.thash ++ [new]) h).map (Log.stamp block) =
          update (fun h => (s.logs h).map (Log.stamp block)) s.thash
            ((s.logs s.thash).map (Log.stamp block) ++ [new.stamp block]) h := by
      simp only [update_apply]
      split_ifs
      · rw [List.map_append]
        rfl
      · rfl
    simp only [addLog, stamp, append, logs]
    rfl

end StateDB

/-- The logs of the state get it. -/
def Applied.stamp (block : Hash) (r : Applied) : Applied :=
  { r with state := r.state.stamp block }

namespace Message

variable {msg : Message} {evm : Evm} {ctx : Context} {gp gp' used : UInt64} {s : StateDB}
  {r : Applied} {failed : Bool}

theorem transitionDb_stamp (block : Hash) : msg.transitionDb evm ctx gp (s.stamp block) =
      (msg.transitionDb evm ctx gp s).map (Applied.stamp block) :=
  transitionDb_unseen (StateDB.unseen_stamp block)

/-! ## The size of the gas pool -/

theorem preCheck_pool {gp₁ : UInt64} (h : msg.preCheck gp s = .ok gp₁)
    (hle : gp.toNat ≤ gp'.toNat) : msg.preCheck gp' s = .ok (gp' - msg.gas) := by
  have hgas : ¬gp' < msg.gas := by
    rw [UInt64.lt_iff_toNat_lt]
    have := (preCheck_eq_ok h).1
    omega
  unfold preCheck subGas at h ⊢
  cases hnonce : msg.checkNonceAt s with
  | error e => simp [hnonce] at h
  | ok u =>
    simp only [hnonce] at h
    split_ifs at h with hbalance
    rw [if_neg hbalance, if_neg hgas]

theorem transitionDb_pool (ran : msg.transitionDb evm ctx gp s = some r)
    (ok : r.result = .ok (used, failed)) (hle : gp.toNat ≤ gp'.toNat) :
    ∃ gp₁ : UInt64, msg.transitionDb evm ctx gp' s = some { r with gp := gp₁ } ∧
      gp₁.toNat + used.toNat = gp'.toNat := by
  obtain ⟨gp₀, intrinsic, hpre, hintrinsic, hpaid, herr, hsettle⟩ := transitionDb_eq_ok ran ok
  obtain ⟨hbought, rfl⟩ := preCheck_eq_ok hpre
  have hgp := gp'.toNat_lt
  have hleft : (msg.callWith evm ctx s intrinsic).gas.toNat ≤ msg.gas.toNat :=
    (callWith_gas_le hpaid).trans (Nat.sub_le _ _)
  have hret := returned (s := msg.afterCall evm ctx s intrinsic) hleft
  have hrest : (gp - msg.gas).toNat = gp.toNat - msg.gas.toNat := Word.toNat_sub hbought
  have hrest' : (gp' - msg.gas).toNat = gp'.toNat - msg.gas.toNat :=
    Word.toNat_sub (hbought.trans hle)
  rw [settle_eq hret (by omega), some.injEq] at hsettle
  rw [transitionDb_eq_settle (preCheck_pool hpre hle) hintrinsic hpaid herr,
    settle_eq hret (by omega)]
  obtain rfl := hsettle
  refine ⟨_, rfl, ?_⟩
  obtain rfl : msg.gas - _ = used := (Prod.mk.inj (Except.ok.inj ok)).1
  have := hret.le
  rw [Word.toNat_add (by omega), hrest', Word.toNat_sub hret.le]
  omega

theorem transitionDb_isSome : (msg.transitionDb evm ctx gp s).isSome := by
  unfold transitionDb
  cases hpre : msg.preCheck gp s with
  | error e => rfl
  | ok gp₁ =>
    cases intrinsicGas msg.data msg.recipient.isNone with
    | error e => rfl
    | ok intrinsic =>
      dsimp only
      obtain ⟨hbought, rfl⟩ := preCheck_eq_ok hpre
      have hgp := gp.toNat_lt
      have hrest : (gp - msg.gas).toNat = gp.toNat - msg.gas.toNat := Word.toNat_sub hbought
      split_ifs with hpaid
      · rfl
      · rfl
      · have hleft : (msg.callWith evm ctx s intrinsic).gas.toNat ≤ msg.gas.toNat :=
          (callWith_gas_le (UInt64.not_lt.1 hpaid)).trans (Nat.sub_le _ _)
        rw [settle_eq (returned hleft) (by omega)]
        rfl

/-! ## What a failed message leaves -/

theorem rewinds_charged (msg : Message) (backed : s.Backed) :
    s.Rewinds (s.subBalance msg.sender msg.gasValue) :=
  show s.Rewinds (s.exec (.subBalance msg.sender msg.gasValue)) from
    StateDB.rewinds_exec backed nofun

theorem rewinds_beforeCall (msg : Message) (backed : s.Backed) : s.Rewinds (msg.beforeCall s) := by
  have charged := rewinds_charged msg backed
  have backed' := (StateDB.grows_subBalance s msg.sender msg.gasValue).backed backed
  unfold beforeCall
  split_ifs
  · exact charged
  · refine charged.trans ?_
    show StateDB.Rewinds _ (StateDB.exec _ (.setNonce _ _))
    exact StateDB.rewinds_exec backed' nofun

/-- Reverting undoes all that a failed message changed, but for what `preCheck` took from the pool.
-/
theorem transitionDb_rewinds (backed : s.Backed) {e : TxError}
    (ran : msg.transitionDb evm ctx gp s = some r) (error : r.result = .error e) :
    s.Rewinds r.state ∧
      ((∃ e, msg.preCheck gp s = .error e) ∧ r.gp = gp ∨ msg.preCheck gp s = .ok r.gp) := by
  unfold transitionDb at ran
  cases hpre : msg.preCheck gp s with
  | error e =>
    rw [hpre] at ran
    obtain rfl := some.inj ran
    exact ⟨.refl s, .inl ⟨⟨e, rfl⟩, rfl⟩⟩
  | ok gp₁ =>
    simp only [hpre] at ran
    cases hintrinsic : intrinsicGas msg.data msg.recipient.isNone with
    | error e =>
      rw [hintrinsic] at ran
      obtain rfl := some.inj ran
      exact ⟨rewinds_charged msg backed, .inr rfl⟩
    | ok intrinsic =>
      simp only [hintrinsic] at ran
      split_ifs at ran with hpaid herr
      · obtain rfl := some.inj ran
        exact ⟨rewinds_charged msg backed, .inr rfl⟩
      · obtain rfl := some.inj ran
        refine ⟨?_, .inr rfl⟩
        -- The machine saw the missing balance before it changed anything.
        have unchanged : msg.afterCall evm ctx s intrinsic = msg.beforeCall s := by
          rw [afterCall, callWith, evm.unchanged _ _ _ _ _ herr]
          rfl
        rw [unchanged]
        exact rewinds_beforeCall msg backed
      · -- A settled message has no error.
        obtain ⟨a, -, rfl⟩ := map_eq_some_iff.1 ran
        exact nomatch error

theorem grows_of_ok (ran : msg.transitionDb evm ctx gp s = some r)
    (ok : r.result = .ok (used, failed)) : s.Grows r.state := by
  obtain ⟨gp₀, intrinsic, hpre, -, hpaid, -, hsettle⟩ := transitionDb_eq_ok ran ok
  have paid : s.Grows (msg.beforeCall s) := by
    have charged := StateDB.grows_subBalance s msg.sender msg.gasValue
    unfold beforeCall
    split_ifs
    · exact charged
    · exact charged.trans (StateDB.grows_exec _ (.setNonce _ _))
  have called : s.Grows (msg.afterCall evm ctx s intrinsic) :=
    paid.trans (StateDB.grows_execAll _ _)
  obtain ⟨_, -, rfl⟩ := map_eq_some_iff.1 hsettle
  exact (called.trans (StateDB.grows_exec _ (.addBalance _ _))).trans
    (StateDB.grows_exec _ (.addBalance _ _))

end Message

end JuChain.State
