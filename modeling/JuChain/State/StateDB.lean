import JuChain.Core.Types
import JuChain.Lib.Journal
import Mathlib.Algebra.BigOperators.Group.Finset.Piecewise
import Mathlib.Algebra.Order.Ring.Int
import Mathlib.Data.FinEnum
import Mathlib.Logic.Function.Basic
import Mathlib.Tactic.SplitIfs

/-!
# The state database

`core/state`: accounts over a trie, with a journal of all changes since the last `Finalise`.
`RevertToSnapshot` gives back the state of the snapshot in all that later code can see
(`rewinds_exec`), but for the account of the RIPEMD contract, which stays marked once it was
touched.

`objects` is what `getStateObject` returns, `trie` is what `IntermediateRoot` hashes.
-/

namespace JuChain.State

open Function

/-! ## Accounts and the journal -/

/-- `stateObject`, with the code and the storage themselves instead of their hashes. -/
structure StateObject where
  nonce : UInt64 := 0
  balance : ℤ := 0
  code : Bytes := []
  storage : Hash → Hash := fun _ => 0
  suicided : Bool := false

/-- `stateObject.empty`. -/
def StateObject.empty (o : StateObject) : Bool := o.nonce = 0 ∧ o.balance = 0 ∧ o.code = []

/-- `types.Log`: what the contract emitted, with the number of the block, and what `AddLog` fills
in. -/
structure Log where
  address : Address
  topics : List Hash
  data : Bytes
  blockNumber : ℕ := 0
  txHash : Hash := 0
  blockHash : Hash := 0
  txIndex : ℕ := 0
  index : ℕ := 0
  deriving DecidableEq

/-- The journal entries, with the values they restore. -/
inductive Entry
  | createObject (a : Address)
  | resetObject (a : Address) (prev : StateObject)
  | suicide (a : Address) (prev : Bool) (prevBalance : ℤ)
  | balance (a : Address) (prev : ℤ)
  | nonce (a : Address) (prev : UInt64)
  | storage (a : Address) (key prev : Hash)
  | code (a : Address) (prev : Bytes)
  | refund (prev : UInt64)
  | addLog (txHash : Hash)
  | touch (a : Address)

/-- The address that an entry makes dirty. -/
def Entry.dirtied : Entry → Option Address
  | .createObject a | .suicide a .. | .balance a _ | .nonce a _ | .storage a .. | .code a _
  | .touch a => some a
  | .resetObject .. | .refund _ | .addLog _ => none

/-- The state without the cache of objects. -/
structure StateDB where
  trie : Address → Option StateObject
  objects : Address → Option StateObject
  entries : List Entry := []
  dirties : Address → ℕ := fun _ => 0
  refund : UInt64 := 0
  thash : Hash := 0
  bhash : Hash := 0
  txIndex : ℕ := 0
  logs : Hash → List Log := fun _ => []
  logSize : ℕ := 0

/-- `New`: the state of a block, read from its trie. -/
def StateDB.new (trie : Address → Option StateObject) : StateDB where
  trie := trie
  objects := trie

namespace StateDB

variable (s : StateDB)

/-- `journal.append`. -/
def append (e : Entry) : StateDB :=
  { s with
    entries := e :: s.entries
    dirties := match e.dirtied with
      | some a => update s.dirties a (s.dirties a + 1)
      | none => s.dirties }

/-- `setStateObject`. -/
def setObject (a : Address) (o : StateObject) : StateDB :=
  { s with objects := update s.objects a (some o) }

/-- A change while an entry is undone. -/
def modify (a : Address) (f : StateObject → StateObject) : StateDB :=
  { s with objects := update s.objects a ((s.objects a).map f) }

def getBalance (a : Address) : ℤ := ((s.objects a).map (·.balance)).getD 0

def getNonce (a : Address) : UInt64 := ((s.objects a).map (·.nonce)).getD 0

/-! ## Changing -/

/-- `createObject`: a fresh account in the place of the old one, if any. -/
def createObject (a : Address) : StateDB :=
  match s.objects a with
  | none => (s.append (.createObject a)).setObject a {}
  | some prev => (s.append (.resetObject a prev)).setObject a {}

/-- `GetOrNewStateObject`, with the object it returns. -/
def getOrNew (a : Address) : StateDB × StateObject :=
  match s.objects a with
  | some o => (s, o)
  | none => (s.createObject a, {})

/-- The address of the RIPEMD contract, as `core/state` has it. -/
def ripemd : Address := 3

/-- `stateObject.touch`. -/
def touch (a : Address) : StateDB :=
  let s := s.append (.touch a)
  if a = ripemd then { s with dirties := update s.dirties a (s.dirties a + 1) } else s

/-! The changes of one object `o`, which is the one at address `a`. -/

/-- `stateObject.SetBalance`. -/
def setBalance (a : Address) (o : StateObject) (amount : ℤ) : StateDB :=
  (s.append (.balance a o.balance)).setObject a { o with balance := amount }

/-- `stateObject.AddBalance`. -/
def objectAddBalance (a : Address) (o : StateObject) (amount : ℤ) : StateDB :=
  if amount = 0 then if o.empty then s.touch a else s
  else s.setBalance a o (o.balance + amount)

/-- `stateObject.SubBalance`. -/
def objectSubBalance (a : Address) (o : StateObject) (amount : ℤ) : StateDB :=
  if amount = 0 then s else s.setBalance a o (o.balance - amount)

/-- `stateObject.SetNonce`. -/
def objectSetNonce (a : Address) (o : StateObject) (n : UInt64) : StateDB :=
  (s.append (.nonce a o.nonce)).setObject a { o with nonce := n }

/-- `stateObject.SetCode`. -/
def objectSetCode (a : Address) (o : StateObject) (code : Bytes) : StateDB :=
  (s.append (.code a o.code)).setObject a { o with code := code }

/-- `stateObject.SetState`. -/
def objectSetState (a : Address) (o : StateObject) (key value : Hash) : StateDB :=
  (s.append (.storage a key (o.storage key))).setObject a
    { o with storage := update o.storage key value }

/-- A method is called on the object. -/
def withObject (a : Address) (f : StateDB → StateObject → StateDB) : StateDB :=
  f (s.getOrNew a).1 (s.getOrNew a).2

def addBalance (a : Address) (amount : ℤ) : StateDB :=
  s.withObject a fun s o => s.objectAddBalance a o amount

def subBalance (a : Address) (amount : ℤ) : StateDB :=
  s.withObject a fun s o => s.objectSubBalance a o amount

def setNonce (a : Address) (n : UInt64) : StateDB :=
  s.withObject a fun s o => s.objectSetNonce a o n

def setCode (a : Address) (code : Bytes) : StateDB :=
  s.withObject a fun s o => s.objectSetCode a o code

def setState (a : Address) (key value : Hash) : StateDB :=
  s.withObject a fun s o => s.objectSetState a o key value

/-- `Suicide`: the balance goes at once, the account with `Finalise`. -/
def suicide (a : Address) : StateDB :=
  match s.objects a with
  | none => s
  | some o =>
    (s.append (.suicide a o.suicided o.balance)).setObject a
      { o with suicided := true, balance := 0 }

/-- `CreateAccount` carries the balance of an overwritten account over. -/
def createAccount (a : Address) : StateDB :=
  match s.objects a with
  | none => s.createObject a
  | some prev => (s.createObject a).setObject a { balance := prev.balance }

def addRefund (gas : UInt64) : StateDB :=
  { s.append (.refund s.refund) with refund := s.refund + gas }

def addLog (l : Log) : StateDB :=
  { s.append (.addLog s.thash) with
    logs := update s.logs s.thash (s.logs s.thash ++
      [{ l with txHash := s.thash, blockHash := s.bhash, txIndex := s.txIndex, index := s.logSize }])
    logSize := s.logSize + 1 }

/-- The entry is undone. -/
def undo : Entry → StateDB
  -- The live object goes, so the address reads as it is in the trie.
  | .createObject a => { s with objects := update s.objects a (s.trie a) }
  | .resetObject a prev => s.setObject a prev
  | .suicide a prev prevBalance =>
    s.modify a fun o => { o with suicided := prev, balance := prevBalance }
  | .balance a prev => s.modify a fun o => { o with balance := prev }
  | .nonce a prev => s.modify a fun o => { o with nonce := prev }
  | .storage a key prev =>
    s.modify a fun o => { o with storage := update o.storage key prev }
  | .code a prev => s.modify a fun o => { o with code := prev }
  | .refund prev => { s with refund := prev }
  | .addLog txHash =>
    { s with
      logs := update s.logs txHash (s.logs txHash).dropLast
      logSize := s.logSize - 1 }
  | .touch _ => s

/-- One round of `journal.revert`: undo the newest entry and its count. -/
def pop : StateDB :=
  match s.entries with
  | [] => s
  | e :: rest =>
    let s := s.undo e
    { s with
      entries := rest
      dirties := match e.dirtied with
        | some a => update s.dirties a (s.dirties a - 1)
        | none => s.dirties }

/-- `Snapshot`: the length of the journal. -/
def snapshot : ℕ := s.entries.length

def revertToSnapshot (s : StateDB) (id : ℕ) : StateDB := Journal.revertTo pop snapshot id s

def prepare (thash bhash : Hash) (ti : ℕ) : StateDB :=
  { s with thash := thash, bhash := bhash, txIndex := ti }

/-- What becomes of a changed account: suicided and empty ones are deleted. -/
def settle (o : StateObject) : Option StateObject :=
  if o.suicided || o.empty then none else some o

/-- `Finalise(true)`: write the changed accounts, clear the journal and the refund. -/
def finalise : StateDB :=
  { s with
    trie := fun a => if 0 < s.dirties a ∧ (s.objects a).isSome then (s.objects a).bind settle
      else s.trie a
    objects := fun a => if 0 < s.dirties a then (s.objects a).bind settle else s.objects a
    entries := []
    dirties := fun _ => 0
    refund := 0 }

/-- The changes a contract can make through the `vm.StateDB` interface. -/
inductive Op
  | addBalance (a : Address) (amount : ℤ)
  | subBalance (a : Address) (amount : ℤ)
  | setNonce (a : Address) (n : UInt64)
  | setCode (a : Address) (code : Bytes)
  | setState (a : Address) (key value : Hash)
  | suicide (a : Address)
  | createAccount (a : Address)
  | addRefund (gas : UInt64)
  | addLog (l : Log)

/-- The call of an operation. -/
def exec : Op → StateDB
  | .addBalance a amount => s.addBalance a amount
  | .subBalance a amount => s.subBalance a amount
  | .setNonce a n => s.setNonce a n
  | .setCode a code => s.setCode a code
  | .setState a key value => s.setState a key value
  | .suicide a => s.suicide a
  | .createAccount a => s.createAccount a
  | .addRefund gas => s.addRefund gas
  | .addLog l => s.addLog l

/-- Several operations. -/
def execAll (ops : List Op) : StateDB := ops.foldl exec s

/-! ## Reverting gives back what was there -/

/-- Objects in the trie are there. -/
def Backed (s : StateDB) : Prop := ∀ a, s.objects a = none → s.trie a = none

/-- `s` can be restored from `t` by `RevertToSnapshot`. -/
abbrev Rewinds (s t : StateDB) : Prop := Journal.Rewinds pop snapshot s t

variable {s t : StateDB}

theorem Rewinds.revert (h : Rewinds s t) : t.revertToSnapshot s.snapshot = s :=
  h.revertTo_eq

theorem rewinds_append {e : Entry} (hentries : t.entries = e :: s.entries)
    (hundo : t.undo e = { s with entries := t.entries, dirties := (s.append e).dirties }) :
    Rewinds s t := by
  refine Journal.Rewinds.of_pop ?_ ?_
  · show t.entries.length = s.entries.length + 1
    rw [hentries, List.length_cons]
  · unfold pop
    rw [hentries]
    simp only [hundo, append]
    cases e.dirtied with
    | none => rfl
    | some a => simp

variable {a : Address}

theorem rewinds_modify {o o' : StateObject} {e : Entry} {f : StateObject → StateObject}
    (ho : s.objects a = some o) (hundo : ∀ t : StateDB, t.undo e = t.modify a f) (hf : f o' = o) :
    Rewinds s ((s.append e).setObject a o') := by
  refine rewinds_append rfl ?_
  have objects : update (update s.objects a (some o')) a (some o) = s.objects := by
    rw [update_idem, ← ho, update_eq_self]
  rw [hundo]
  simp [modify, setObject, hf, objects, append]

theorem rewinds_createObject (backed : s.Backed) (a : Address) : Rewinds s (s.createObject a) := by
  unfold createObject
  cases ho : s.objects a with
  | none =>
    have objects : update s.objects a (s.trie a) = s.objects := by
      rw [backed a ho, ← ho, update_eq_self]
    refine rewinds_append rfl ?_
    simp only [undo, setObject, append, update_idem, objects]
  | some prev =>
    have objects : update s.objects a (some prev) = s.objects := by
      rw [← ho, update_eq_self]
    refine rewinds_append rfl ?_
    simp only [undo, setObject, append, update_idem, objects]

variable {f : StateDB → StateObject → StateDB}

theorem rewinds_withObject (backed : s.Backed) (a : Address)
    (hf : ∀ t o, t.objects a = some o → Rewinds t (f t o)) : Rewinds s (s.withObject a f) := by
  unfold withObject getOrNew
  cases ho : s.objects a with
  | some o => exact hf s o ho
  | none =>
    refine (rewinds_createObject backed a).trans (hf _ _ ?_)
    simp only [createObject, ho, setObject, update_self]

theorem rewinds_touch (s : StateDB) (quiet : a ≠ ripemd) : Rewinds s (s.touch a) := by
  have plain : s.touch a = s.append (.touch a) := if_neg quiet
  rw [plain]
  exact rewinds_append rfl rfl

theorem rewinds_createAccount (backed : s.Backed) (a : Address) : Rewinds s (s.createAccount a) := by
  unfold createAccount
  cases ho : s.objects a with
  | none => exact rewinds_createObject backed a
  | some prev =>
    have objects : update s.objects a (some prev) = s.objects := by
      rw [← ho, update_eq_self]
    refine rewinds_append (e := .resetObject a prev) ?_ ?_
    · simp only [createObject, ho, setObject, append]
    · simp only [createObject, ho, undo, setObject, append, update_idem, objects]

/-- Every change of the state but a touch of the RIPEMD contract is undone by reverting. -/
theorem rewinds_exec (backed : s.Backed) {op : Op}
    (quiet : ∀ amount, op ≠ .addBalance ripemd amount) : Rewinds s (s.exec op) := by
  cases op with
  | addBalance a amount =>
    refine rewinds_withObject backed a fun t o ho => ?_
    unfold objectAddBalance
    split_ifs
    · refine rewinds_touch t ?_
      rintro rfl
      exact quiet amount rfl
    · exact .refl t
    · exact rewinds_modify ho (fun _ => rfl) rfl
  | subBalance a amount =>
    refine rewinds_withObject backed a fun t o ho => ?_
    unfold objectSubBalance
    split_ifs
    · exact .refl t
    · exact rewinds_modify ho (fun _ => rfl) rfl
  | setNonce a n | setCode a code =>
    exact rewinds_withObject backed a fun t o ho => rewinds_modify ho (fun _ => rfl) rfl
  | setState a key value =>
    refine rewinds_withObject backed a fun t o ho => rewinds_modify ho (fun _ => rfl) ?_
    simp only [update_idem, update_eq_self]
  | suicide a =>
    show Rewinds s (s.suicide a)
    unfold suicide
    cases ho : s.objects a with
    | none => exact .refl s
    | some o => exact rewinds_modify ho (fun _ => rfl) rfl
  | createAccount a => exact rewinds_createAccount backed a
  | addRefund gas => exact rewinds_append rfl rfl
  | addLog l =>
    refine rewinds_append rfl ?_
    simp only [exec, addLog, undo, append, update_self, update_idem,
      List.dropLast_concat, update_eq_self, Nat.add_sub_cancel]

/-! ## Changes only add accounts -/

/-- The trie is left alone and no account goes before `Finalise`. -/
structure Grows (s t : StateDB) : Prop where
  trie : t.trie = s.trie
  objects : ∀ a, (s.objects a).isSome → (t.objects a).isSome

theorem Grows.trans {s u : StateDB} (h : Grows s t) (h' : Grows t u) : Grows s u :=
  ⟨h'.trie.trans h.trie, fun a ha => h'.objects a (h.objects a ha)⟩

theorem Grows.backed {s : StateDB} (h : Grows s t) (backed : s.Backed) : t.Backed := by
  intro a ha
  rw [h.trie]
  refine backed a ?_
  by_contra hsome
  have := h.objects a (Option.isSome_iff_ne_none.2 hsome)
  rw [ha] at this
  exact absurd this (by simp)

theorem grows_setObject (s : StateDB) (e : Entry) (a : Address) (o : StateObject) :
    Grows s ((s.append e).setObject a o) := by
  refine ⟨rfl, fun b hb => ?_⟩
  simp only [setObject, append, update_apply]
  split_ifs
  · rfl
  · exact hb

theorem grows_createObject (s : StateDB) (a : Address) : Grows s (s.createObject a) := by
  unfold createObject
  cases s.objects a with
  | none | some prev => exact grows_setObject s _ a _

theorem grows_withObject (s : StateDB) (a : Address) (hf : ∀ t o, Grows t (f t o)) :
    Grows s (s.withObject a f) := by
  unfold withObject getOrNew
  cases s.objects a with
  | some o => exact hf s o
  | none => exact (grows_createObject s a).trans (hf _ _)

theorem grows_subBalance (s : StateDB) (a : Address) (amount : ℤ) :
    Grows s (s.subBalance a amount) := by
  refine grows_withObject s a fun t o => ?_
  unfold objectSubBalance
  split_ifs
  · exact ⟨rfl, fun _ => id⟩
  · exact grows_setObject t _ a _

theorem grows_exec (s : StateDB) (op : Op) : Grows s (s.exec op) := by
  have here (t : StateDB) : Grows t t := ⟨rfl, fun _ => id⟩
  cases op with
  | addBalance a amount =>
    show Grows s (s.withObject a fun t o => t.objectAddBalance a o amount)
    refine grows_withObject s a fun t o => ?_
    unfold objectAddBalance touch
    split_ifs
    · exact ⟨rfl, fun _ => id⟩
    · exact ⟨rfl, fun _ => id⟩
    · exact here t
    · exact grows_setObject t _ a _
  | subBalance a amount => exact grows_subBalance s a amount
  | setNonce a n => exact grows_withObject s a fun t o => grows_setObject t _ a _
  | setCode a code
  | setState a key value => exact grows_withObject s a fun t o => grows_setObject t _ a _
  | suicide a =>
    show Grows s (s.suicide a)
    unfold suicide
    cases s.objects a with
    | none => exact here s
    | some o => exact grows_setObject s _ a _
  | createAccount a =>
    show Grows s (s.createAccount a)
    unfold createAccount
    cases ho : s.objects a with
    | none => exact grows_createObject s a
    | some prev =>
      have reset : (s.createObject a).setObject a { balance := prev.balance } =
          (s.append (.resetObject a prev)).setObject a { balance := prev.balance } := by
        simp only [createObject, ho, setObject, append, update_idem]
      show Grows s ((s.createObject a).setObject a { balance := prev.balance })
      rw [reset]
      exact grows_setObject s _ a _
  | addRefund gas | addLog l => exact ⟨rfl, fun _ => id⟩

theorem grows_execAll (s : StateDB) (ops : List Op) : Grows s (s.execAll ops) := by
  induction ops generalizing s with
  | nil => exact ⟨rfl, fun _ => id⟩
  | cons op ops ih => exact (grows_exec s op).trans (ih (s.exec op))

theorem Backed.finalise {s : StateDB} (backed : s.Backed) : s.finalise.Backed := by
  intro a ha
  have hb := backed a
  simp only [StateDB.finalise] at ha ⊢
  by_cases hd : 0 < s.dirties a
  · rw [if_pos hd] at ha
    cases ho : s.objects a with
    | none => simpa [ho] using hb ho
    | some o =>
      rw [ho] at ha
      simpa [hd] using ha
  · rw [if_neg hd] at ha
    rw [if_neg fun h => hd h.1]
    exact hb ha

/-! ## Balances -/

theorem getBalance_setObject (s : StateDB) (e : Entry) (a b : Address) (o : StateObject) :
    ((s.append e).setObject a o).getBalance b = if b = a then o.balance else s.getBalance b := by
  simp only [getBalance, setObject, append, update_apply]
  split_ifs <;> rfl

theorem getBalance_of_some {o : StateObject} (ho : s.objects a = some o) :
    s.getBalance a = o.balance := by
  rw [getBalance, ho]
  rfl

theorem getBalance_withObject (s : StateDB) (a : Address) (delta : Address → ℤ)
    (hf : ∀ t o, t.objects a = some o → ∀ b, (f t o).getBalance b = t.getBalance b + delta b)
    (b : Address) :
    (s.withObject a f).getBalance b = s.getBalance b + delta b := by
  unfold withObject getOrNew
  cases ho : s.objects a with
  | some o => exact hf s o ho b
  | none =>
    have created : s.createObject a = (s.append (.createObject a)).setObject a {} := by
      rw [createObject, ho]
    have here : (s.createObject a).objects a = some {} := by
      rw [created]
      exact update_self ..
    have same : (s.createObject a).getBalance b = s.getBalance b := by
      rw [created, getBalance_setObject]
      split_ifs with h
      · rw [h, getBalance, ho]
        rfl
      · rfl
    rw [← same]
    exact hf _ _ here b

theorem getBalance_touch (s : StateDB) (a b : Address) : (s.touch a).getBalance b = s.getBalance b := by
  unfold touch
  split_ifs <;> rfl

theorem getBalance_addBalance (s : StateDB) (a b : Address) (amount : ℤ) :
    (s.addBalance a amount).getBalance b = s.getBalance b + if b = a then amount else 0 := by
  refine getBalance_withObject s a (fun b => if b = a then amount else 0) (fun t o ho b => ?_) b
  unfold objectAddBalance
  by_cases hzero : amount = 0
  · rw [if_pos hzero, hzero, ite_self, add_zero]
    split_ifs
    · exact getBalance_touch t a b
    · rfl
  · rw [if_neg hzero, setBalance, getBalance_setObject]
    split_ifs with hb
    · rw [hb, getBalance_of_some ho]
    · rw [add_zero]

theorem getBalance_subBalance (s : StateDB) (a b : Address) (amount : ℤ) :
    (s.subBalance a amount).getBalance b = s.getBalance b + if b = a then -amount else 0 := by
  refine getBalance_withObject s a (fun b => if b = a then -amount else 0) (fun t o ho b => ?_) b
  unfold objectSubBalance setBalance
  split_ifs with hzero hb hb
  · rw [hzero, neg_zero, add_zero]
  · rw [add_zero]
  · rw [getBalance_setObject, if_pos hb, hb, getBalance_of_some ho]
    rfl
  · rw [getBalance_setObject, if_neg hb, add_zero]

theorem getBalance_setNonce (s : StateDB) (a b : Address) (n : UInt64) :
    (s.setNonce a n).getBalance b = s.getBalance b := by
  refine (getBalance_withObject s a (fun _ => 0) (fun t o ho b => ?_) b).trans (add_zero _)
  unfold objectSetNonce
  rw [getBalance_setObject, add_zero]
  split_ifs with hb
  · rw [hb, getBalance_of_some ho]
  · rfl

/-- The sum of all balances. -/
def total (s : StateDB) : ℤ := ∑ a : Address, s.getBalance a

theorem total_of_change {amount : ℤ}
    (h : ∀ b, t.getBalance b = s.getBalance b + if b = a then amount else 0) :
    t.total = s.total + amount := by
  unfold total
  rw [Finset.sum_congr rfl fun b _ => h b, Finset.sum_add_distrib, Finset.sum_ite_eq',
    if_pos (Finset.mem_univ a)]

theorem total_addBalance (s : StateDB) (a : Address) (amount : ℤ) :
    (s.addBalance a amount).total = s.total + amount :=
  total_of_change fun b => getBalance_addBalance s a b amount

end StateDB

end JuChain.State
