import JuChain.Lib.Runs
import JuChain.Lib.Search
import JuChain.State.StateDB

/-!
# The maps behind the state database

`StateDB` has one account for each address.  The code keeps a map of live objects, which are read
from the trie when they are first asked for and stay in the map, marked, when they are deleted.
`Live` has all of that, and `view` is the `StateDB` that is seen through it.
-/

namespace JuChain.State

open Function

/-! ## The state -/

/-- `stateObject`. -/
structure Object extends StateObject where
  deleted : Bool := false

/-- An entry of the journal. -/
inductive Change
  | state (e : Entry)
  | addPreimage (hash : Hash)

/-- The entry, unless it is a preimage. -/
def Change.entry : Change → Option Entry
  | .state e => some e
  | .addPreimage _ => none

structure Revision where
  id : ℕ
  journalIndex : ℕ

/-- `StateDB`; the journal has its newest entry first. -/
structure Live where
  trie : Address → Option StateObject
  stateObjects : Address → Option Object := fun _ => none
  stateObjectsDirty : Address → Bool := fun _ => false
  entries : List Change := []
  dirties : Address → ℕ := fun _ => 0
  refund : UInt64 := 0
  thash : Hash := 0
  bhash : Hash := 0
  txIndex : ℕ := 0
  logs : Hash → List Log := fun _ => []
  logSize : ℕ := 0
  preimages : Hash → Option Bytes := fun _ => none
  validRevisions : List Revision := []
  nextRevisionId : ℕ := 0

/-- `newObject`: an account of the trie is not marked. -/
def newObject (data : StateObject) : StateObject := { data with suicided := false }

/-- What a method of an object does. -/
inductive Effect
  | nothing
  | touch
  | change (e : Entry) (o : StateObject)

namespace StateObject

variable (a : Address) (o : StateObject)

/-- `stateObject.SetBalance`. -/
def setBalance (amount : ℤ) : Effect := .change (.balance a o.balance) { o with balance := amount }

/-- `stateObject.AddBalance`. -/
def addBalance (amount : ℤ) : Effect :=
  if amount = 0 then if o.empty then .touch else .nothing else o.setBalance a (o.balance + amount)

/-- `stateObject.SubBalance`. -/
def subBalance (amount : ℤ) : Effect :=
  if amount = 0 then .nothing else o.setBalance a (o.balance - amount)

/-- `stateObject.SetNonce`. -/
def setNonce (nonce : UInt64) : Effect := .change (.nonce a o.nonce) { o with nonce := nonce }

/-- `stateObject.SetCode`. -/
def setCode (code : Bytes) : Effect := .change (.code a o.code) { o with code := code }

/-- `stateObject.SetState`. -/
def setState (key value : Hash) : Effect :=
  .change (.storage a key (o.storage key)) { o with storage := update o.storage key value }

end StateObject

namespace Live

open StateDB (ripemd)

variable (s : Live)

/-- `journal.append`. -/
def append (c : Change) : Live :=
  { s with
    entries := c :: s.entries
    dirties := match c.entry.bind Entry.dirtied with
      | some a => update s.dirties a (s.dirties a + 1)
      | none => s.dirties }

/-- `journal.dirty`. -/
def dirty (a : Address) : Live := { s with dirties := update s.dirties a (s.dirties a + 1) }

def setStateObject (a : Address) (o : StateObject) : Live :=
  { s with stateObjects := update s.stateObjects a (some { toStateObject := o }) }

/-- `getStateObject`: the state afterwards and the object. -/
def getStateObject (a : Address) : Live × Option StateObject :=
  match s.stateObjects a with
  | some o => (s, if o.deleted then none else some o.toStateObject)
  | none =>
    match s.trie a with
    | none => (s, none)
    | some data => (s.setStateObject a (newObject data), some (newObject data))

/-- The object that `getStateObject` returns. -/
def object (a : Address) : Option StateObject := (s.getStateObject a).2

def createObject (a : Address) : Live × Option StateObject :=
  match s.getStateObject a with
  | (s, none) => ((s.append (.state (.createObject a))).setStateObject a {}, none)
  | (s, some prev) => ((s.append (.state (.resetObject a prev))).setStateObject a {}, some prev)

/-- `GetOrNewStateObject`. -/
def getOrNew (a : Address) : Live × StateObject :=
  match s.getStateObject a with
  | (s, some o) => (s, o)
  | (s, none) => ((s.createObject a).1, {})

/-- `stateObject.touch`. -/
def touch (a : Address) : Live :=
  let s := s.append (.state (.touch a))
  if a = ripemd then s.dirty a else s

/-- Write what a method has done to the object of the address. -/
def record (a : Address) : Effect → Live
  | .nothing => s
  | .touch => s.touch a
  | .change e o => (s.append (.state e)).setStateObject a o

/-- A method is called on the object. -/
def withObject (a : Address) (f : StateObject → Effect) : Live :=
  (s.getOrNew a).1.record a (f (s.getOrNew a).2)

def exist (a : Address) : Bool := (s.object a).isSome

def empty (a : Address) : Bool := ((s.object a).map (·.empty)).getD true

def getBalance (a : Address) : ℤ := ((s.object a).map (·.balance)).getD 0

def getNonce (a : Address) : UInt64 := ((s.object a).map (·.nonce)).getD 0

def getCode (a : Address) : Bytes := ((s.object a).map (·.code)).getD []

def getState (a : Address) (key : Hash) : Hash := ((s.object a).map (·.storage key)).getD 0

def hasSuicided (a : Address) : Bool := ((s.object a).map (·.suicided)).getD false

/-! ## Changing -/

/-- The methods that change the state. -/
inductive Mutator
  | createAccount (a : Address)
  | addBalance (a : Address) (amount : ℤ)
  | subBalance (a : Address) (amount : ℤ)
  | setBalance (a : Address) (amount : ℤ)
  | setNonce (a : Address) (nonce : UInt64)
  | setCode (a : Address) (code : Bytes)
  | setState (a : Address) (key value : Hash)
  | suicide (a : Address)
  | addRefund (gas : UInt64)
  | addLog (l : Log)
  | addPreimage (hash : Hash) (preimage : Bytes)

def createAccount (a : Address) : Live :=
  match s.createObject a with
  | (s, none) => s
  | (s, some prev) => s.setStateObject a { balance := prev.balance }

def suicide (a : Address) : Live :=
  match s.getStateObject a with
  | (s, none) => s
  | (s, some o) =>
    (s.append (.state (.suicide a o.suicided o.balance))).setStateObject a
      { o with suicided := true, balance := 0 }

def addRefund (gas : UInt64) : Live :=
  { s.append (.state (.refund s.refund)) with refund := s.refund + gas }

def addLog (l : Log) : Live :=
  { s.append (.state (.addLog s.thash)) with
    logs := update s.logs s.thash (s.logs s.thash ++
      [{ l with txHash := s.thash, blockHash := s.bhash, txIndex := s.txIndex, index := s.logSize }])
    logSize := s.logSize + 1 }

/-- `AddPreimage` keeps the first preimage of a hash. -/
def addPreimage (hash : Hash) (preimage : Bytes) : Live :=
  match s.preimages hash with
  | some _ => s
  | none =>
    { s.append (.addPreimage hash) with preimages := update s.preimages hash (some preimage) }

/-- The call of a method. -/
def exec : Mutator → Live
  | .createAccount a => s.createAccount a
  | .addBalance a amount => s.withObject a fun o => o.addBalance a amount
  | .subBalance a amount => s.withObject a fun o => o.subBalance a amount
  | .setBalance a amount => s.withObject a fun o => o.setBalance a amount
  | .setNonce a nonce => s.withObject a fun o => o.setNonce a nonce
  | .setCode a code => s.withObject a fun o => o.setCode a code
  | .setState a key value => s.withObject a fun o => o.setState a key value
  | .suicide a => s.suicide a
  | .addRefund gas => s.addRefund gas
  | .addLog l => s.addLog l
  | .addPreimage hash preimage => s.addPreimage hash preimage

/-! ## Snapshots -/

/-- A change while an entry is undone. -/
def modify (a : Address) (f : StateObject → StateObject) : Option Live :=
  match s.getStateObject a with
  | (_, none) => none
  | (s, some o) => some (s.setStateObject a (f o))

/-- `journalEntry.revert`; `none` is a panic. -/
def undo : Change → Option Live
  | .state (.createObject a) =>
    some { s with
      stateObjects := update s.stateObjects a none
      stateObjectsDirty := update s.stateObjectsDirty a false }
  | .state (.resetObject a prev) => some (s.setStateObject a prev)
  | .state (.suicide a prev prevBalance) =>
    match s.getStateObject a with
    | (s, none) => some s
    | (s, some o) => some (s.setStateObject a { o with suicided := prev, balance := prevBalance })
  | .state (.balance a prev) => s.modify a fun o => { o with balance := prev }
  | .state (.nonce a prev) => s.modify a fun o => { o with nonce := prev }
  | .state (.storage a key prev) =>
    s.modify a fun o => { o with storage := update o.storage key prev }
  | .state (.code a prev) => s.modify a fun o => { o with code := prev }
  | .state (.refund prev) => some { s with refund := prev }
  | .state (.addLog txHash) =>
    -- without a log the slice would end before it begins
    if s.logs txHash = [] then none
    else some { s with
      logs := update s.logs txHash (s.logs txHash).dropLast
      logSize := s.logSize - 1 }
  | .state (.touch _) => some s
  | .addPreimage hash => some { s with preimages := update s.preimages hash none }

/-- The entry is taken off the journal. -/
def drop (c : Change) (rest : List Change) : Live :=
  { s with
    entries := rest
    dirties := match c.entry.bind Entry.dirtied with
      | some a => update s.dirties a (s.dirties a - 1)
      | none => s.dirties }

/-- The last entry is undone. -/
def pop : Option Live :=
  match s.entries with
  | [] => none
  | c :: rest => (s.undo c).map fun s => s.drop c rest

/-- The last entries are undone. -/
def popAll : ℕ → Live → Option Live
  | 0, s => some s
  | n + 1, s => s.pop.bind (popAll n)

/-- `Snapshot`, which returns the id of the new revision. -/
def snapshot : ℕ × Live :=
  (s.nextRevisionId,
    { s with
      validRevisions := s.validRevisions ++ [⟨s.nextRevisionId, s.entries.length⟩]
      nextRevisionId := s.nextRevisionId + 1 })

/-- `RevertToSnapshot`; `none` is a panic, also of the slice of revisions. -/
def revertToSnapshot (revid : ℕ) : Option Live :=
  let idx := Search.search (fun i => decide (revid ≤ (s.validRevisions.getD i ⟨0, 0⟩).id))
    s.validRevisions.length
  match s.validRevisions[idx]? with
  | none => none
  | some r =>
    if r.id ≠ revid ∨ s.entries.length < r.journalIndex then none
    else (popAll (s.entries.length - r.journalIndex) s).map fun s =>
      { s with validRevisions := s.validRevisions.take idx }

def clearJournalAndRefund : Live :=
  { s with entries := [], dirties := fun _ => 0, validRevisions := [], refund := 0 }

/-- The object is deleted from the trie. -/
def Removed (o : Object) (deleteEmptyObjects : Bool) : Bool :=
  o.suicided || (deleteEmptyObjects && o.empty)

/-- `Finalise` goes through the changed addresses that have an object in the map. -/
def finalise (deleteEmptyObjects : Bool) : Live :=
  clearJournalAndRefund { s with
    trie := fun a =>
      match s.stateObjects a with
      | none => s.trie a
      | some o =>
        if s.dirties a = 0 then s.trie a
        else if Removed o deleteEmptyObjects then none else some o.toStateObject
    stateObjects := fun a => (s.stateObjects a).map fun o =>
      if s.dirties a ≠ 0 ∧ Removed o deleteEmptyObjects then { o with deleted := true } else o
    stateObjectsDirty :=
      fun a => s.stateObjectsDirty a || (decide (s.dirties a ≠ 0) && (s.stateObjects a).isSome) }

/-- `IntermediateRoot`; the root is a function `root` of the accounts in the trie. -/
def intermediateRoot (root : (Address → Option StateObject) → Hash) (deleteEmptyObjects : Bool) :
    Hash :=
  root (s.finalise deleteEmptyObjects).trie

/-- The object has to be written. -/
def isDirty (a : Address) : Bool := s.stateObjectsDirty a || decide (s.dirties a ≠ 0)

/-- `Commit` goes through all objects in the map. -/
def commit (deleteEmptyObjects : Bool) : Live :=
  clearJournalAndRefund { s with
    trie := fun a =>
      match s.stateObjects a with
      | none => s.trie a
      | some o =>
        if Removed o (s.isDirty a && deleteEmptyObjects) then none
        else if s.isDirty a then some o.toStateObject else s.trie a
    stateObjects := fun a => (s.stateObjects a).map fun o =>
      if Removed o (s.isDirty a && deleteEmptyObjects) then { o with deleted := true } else o
    stateObjectsDirty := fun a => s.isDirty a && (s.stateObjects a).isNone }

/-- The root that `Commit` returns. -/
def commitRoot (root : (Address → Option StateObject) → Hash) (deleteEmptyObjects : Bool) : Hash :=
  root (s.commit deleteEmptyObjects).trie

/-! ## All calls -/

def new (trie : Address → Option StateObject) : Live where
  trie := trie

def prepare (thash bhash : Hash) (ti : ℕ) : Live :=
  { s with thash := thash, bhash := bhash, txIndex := ti }

/-- `Copy` takes over the changed objects only, and not the journal. -/
def copy : Live where
  trie := s.trie
  stateObjects := fun a => if s.isDirty a then s.stateObjects a else none
  stateObjectsDirty :=
    fun a => s.stateObjectsDirty a || (decide (s.dirties a ≠ 0) && (s.stateObjects a).isSome)
  refund := s.refund
  logs := s.logs
  logSize := s.logSize
  preimages := s.preimages

def reset (trie : Address → Option StateObject) : Live :=
  { new trie with nextRevisionId := s.nextRevisionId }

/-- A call of the interface. -/
inductive Call
  | mutate (m : Mutator)
  /-- Any of the readers. -/
  | read (a : Address)
  | snapshot
  | revert (id : ℕ)
  | finalise (deleteEmptyObjects : Bool)
  | commit (deleteEmptyObjects : Bool)
  | prepare (thash bhash : Hash) (ti : ℕ)
  | copy
  | reset (trie : Address → Option StateObject)

/-- The state after a call. -/
def step : Call → Option Live
  | .mutate m => some (s.exec m)
  | .read a => some (s.getStateObject a).1
  | .snapshot => some s.snapshot.2
  | .revert id => s.revertToSnapshot id
  | .finalise deleteEmptyObjects => some (s.finalise deleteEmptyObjects)
  | .commit deleteEmptyObjects => some (s.commit deleteEmptyObjects)
  | .prepare thash bhash ti => some (s.prepare thash bhash ti)
  | .copy => some s.copy
  | .reset trie => some (s.reset trie)

end Live

end JuChain.State
