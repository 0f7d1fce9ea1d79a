import JuChain.State.Transition
import Mathlib.Data.List.Basic

/-!
# Logs

The logs of a transaction are filed under its hash, with the place they were emitted at: `AddLog`
takes it from what `Prepare` has noted and counts the logs of the block.  `Emits` says which logs an
execution adds.
-/

namespace JuChain.State

open List

namespace StateDB

variable (a : Address)

/-- The fields that logs depend on. -/
def logging (s : StateDB) : (Hash → List Log) × ℕ × Hash × Hash × ℕ :=
  (s.logs, s.logSize, s.thash, s.bhash, s.txIndex)

/-- The logs with their place in the block. -/
def place (s : StateDB) (ls : List Log) : List Log :=
  ls.mapIdx fun k l =>
    { l with txHash := s.thash, blockHash := s.bhash, txIndex := s.txIndex, index := s.logSize + k }

/-- From `s` to `t` the logs `ls` were emitted. -/
def Emits (s t : StateDB) (ls : List Log) : Prop :=
  t.logging = (Function.update s.logs s.thash (s.logs s.thash ++ s.place ls), s.logSize + ls.length,
    s.thash, s.bhash, s.txIndex)

variable {s t u : StateDB} {ls ms : List Log}

theorem emits_nil (h : t.logging = s.logging) : Emits s t [] := by
  rw [Emits, h]
  simp [logging, place]

theorem Emits.trans (h : Emits s t ls) (h' : Emits t u ms) : Emits s u (ls ++ ms) := by
  simp only [Emits, logging, Prod.mk.injEq] at h h' ⊢
  obtain ⟨logs, size, thash, bhash, index⟩ := h
  have placed : s.place (ls ++ ms) = s.place ls ++ t.place ms := by
    simp [place, mapIdx_append, size, thash, bhash, index, Nat.add_assoc, Nat.add_comm ls.length]
  refine ⟨?_, ?_, ?_, ?_, ?_⟩
  · rw [h'.1, thash, logs, Function.update_self, Function.update_idem, placed, append_assoc]
  · rw [h'.2.1, size, length_append, Nat.add_assoc]
  · exact h'.2.2.1.trans thash
  · exact h'.2.2.2.1.trans bhash
  · exact h'.2.2.2.2.trans index

/-! ## Operations that emit nothing -/

theorem logging_createObject : (s.createObject a).logging = s.logging := by
  unfold createObject
  cases s.objects a <;> rfl

theorem logging_withObject {f : StateDB → StateObject → StateDB}
    (hf : ∀ t o, (f t o).logging = t.logging) : (s.withObject a f).logging = s.logging := by
  unfold withObject getOrNew
  cases s.objects a with
  | some o => exact hf s o
  | none => exact (hf _ _).trans (logging_createObject a)

theorem logging_addBalance (amount : ℤ) : (s.addBalance a amount).logging = s.logging := by
  refine logging_withObject a fun t o => ?_
  unfold objectAddBalance touch
  split_ifs <;> rfl

theorem logging_subBalance (amount : ℤ) : (s.subBalance a amount).logging = s.logging := by
  refine logging_withObject a fun t o => ?_
  unfold objectSubBalance
  split_ifs <;> rfl

theorem logging_setNonce (n : UInt64) : (s.setNonce a n).logging = s.logging :=
  logging_withObject a fun _ _ => rfl

/-- The logs of an operation. -/
def Op.emitted : Op → List Log
  | .addLog l => [l]
  | _ => []

theorem emits_exec (op : Op) : Emits s (s.exec op) op.emitted := by
  cases op with
  | addBalance a amount => exact emits_nil (logging_addBalance a amount)
  | subBalance a amount => exact emits_nil (logging_subBalance a amount)
  | setNonce a n => exact emits_nil (logging_setNonce a n)
  | setCode a code | setState a key value => exact emits_nil (logging_withObject a fun _ _ => rfl)
  | suicide a =>
    refine emits_nil ?_
    change (s.suicide a).logging = _
    unfold suicide
    cases s.objects a <;> rfl
  | createAccount a =>
    refine emits_nil ?_
    change (s.createAccount a).logging = _
    unfold createAccount
    cases s.objects a <;> exact logging_createObject a
  | addRefund gas => exact emits_nil rfl
  | addLog l => rfl

theorem emits_execAll (ops : List Op) : Emits s (s.execAll ops) (ops.flatMap Op.emitted) := by
  induction ops generalizing s with
  | nil => exact emits_nil rfl
  | cons op ops ih =>
    exact (emits_exec op).trans ih

end StateDB

/-- `makeLog` gives every log the number of the block. -/
def Evm.NumbersLogs (evm : Evm) : Prop :=
  ∀ ctx msg objects refund gas, ∀ l : Log, .addLog l ∈ (evm.call ctx msg objects refund gas).ops →
    l.blockNumber = ctx.blockNumber

namespace Message

variable {msg : Message} {evm : Evm} {ctx : Context} {gp used : UInt64} {s : StateDB} {r : Applied}
  {failed : Bool}

theorem logging_beforeCall : (msg.beforeCall s).logging = s.logging := by
  unfold beforeCall
  split_ifs
  · exact StateDB.logging_subBalance _ _
  · exact (StateDB.logging_setNonce _ _).trans (StateDB.logging_subBalance _ _)

theorem emits_transitionDb (numbers : evm.NumbersLogs) (ran : msg.transitionDb evm ctx gp s = some r)
    (ok : r.result = .ok (used, failed)) :
    ∃ ls, s.Emits r.state.finalise ls ∧ ∀ l ∈ ls, l.blockNumber = ctx.blockNumber := by
  obtain ⟨gp₁, intrinsic, -, -, -, -, settled⟩ := transitionDb_eq_ok ran ok
  refine ⟨(msg.callWith evm ctx s intrinsic).ops.flatMap StateDB.Op.emitted, ?_, fun l hl => ?_⟩
  · obtain ⟨gp₂, -, rfl⟩ := Option.map_eq_some_iff.1 settled
    have before : s.Emits (msg.beforeCall s) [] := StateDB.emits_nil logging_beforeCall
    have ran := StateDB.emits_execAll (s := msg.beforeCall s) (msg.callWith evm ctx s intrinsic).ops
    have after : ∀ (t : StateDB) (a b : Address) (m n : ℤ),
      ((t.addBalance a m).addBalance b n).finalise.logging =
        t.logging :=
          fun t a b m n => (StateDB.logging_addBalance b n).trans (StateDB.logging_addBalance a m)
    rw [← append_nil (flatMap _ _), ← nil_append (flatMap _ _)]
    exact (before.trans ran).trans (StateDB.emits_nil (after _ _ _ _ _))
  · obtain ⟨op, hop, emitted⟩ := mem_flatMap.1 hl
    cases op with
    | addLog m =>
      obtain rfl := mem_singleton.1 emitted
      exact numbers _ _ _ _ _ _ hop
    | _ => exact absurd emitted not_mem_nil

end Message

end JuChain.State
