import JuChain.Lib.Keyed
import JuChain.Lib.Runs
import JuChain.Trie.Node

/-!
# Trie synchronisation

`core/trie/sync.go`: a scheduler that asks for the nodes of a trie which the database does not
have.  A node waits in memory until everything it refers to is there.  A request counts the entries
it waits for (`deps`), and each entry lists the requests that wait for it (`parents`), by hash.

The leaf callback is a name with a table that says what it registers for which leaf, and whether it
then fails.  The recursion of `commit` over the parents is a stack of parents still to be notified.
-/

namespace JuChain.Trie

open Slices

def emptyRoot : Hash := 0x56e81f171bcc55a6ff8345e692c0f86e5b48e01b996cadc001622fb5e363b421

def emptyState : Hash := 0xc5d2460186f7233c927e7db2dcc703c0e500b653ca82273b7bfad8045d85a470

/-- What a leaf callback registers: `AddSubTrie` or `AddRawEntry`. -/
inductive Action (κ : Type) where
  | subTrie (root : Hash) (depth : ℕ) (callback : Option κ)
  | rawEntry (hash : Hash) (depth : ℕ)

/-- What a callback does with a leaf, and whether it then returns an error. -/
abbrev LeafCallback (κ : Type) := κ → Bytes → List (Action κ) × Bool

structure Request (κ : Type) where
  hash : Hash
  data : Option Bytes := none
  raw : Bool := false
  parents : List Hash := []
  depth : ℕ
  deps : ℤ := 0
  callback : Option κ := none

/-- The request for a child. -/
def Request.child {κ : Type} (req : Request κ) (h : Hash) (depth : ℕ) : Request κ :=
  { hash := h, parents := [req.hash], depth := depth, callback := req.callback }

structure SyncResult where
  hash : Hash
  data : Bytes

/-- `TrieSync`, with the membatch as a map and the order of its keys. -/
structure Sync (κ : Type) where
  database : Hash → Option Bytes
  batch : Hash → Option Bytes := fun _ => none
  order : List Hash := []
  requests : List (Request κ) := []
  queue : List (Hash × ℕ) := []

/-- The errors of `Process`. -/
inductive SyncErr
  | notRequested
  | alreadyProcessed
  | undecodable (e : NodeErr)
  | callback
  deriving DecidableEq

namespace Sync

variable {κ : Type}
variable (s : Sync κ)

/-- The request for a hash. -/
def request (h : Hash) : Option (Request κ) := Keyed.find Request.hash h s.requests

/-- Change the request with the hash of `req` in place. -/
def update (req : Request κ) : Sync κ :=
  { s with requests := Keyed.replace Request.hash req s.requests }

def schedule (req : Request κ) : Sync κ :=
  match s.request req.hash with
  | some old => s.update { old with parents := old.parents ++ req.parents }
  | none => { s with queue := s.queue ++ [(req.hash, req.depth)], requests := s.requests ++ [req] }

/-- Schedule a request under its parent, if it has one; `none` is the panic where that is not found.
-/
def scheduleUnder (parent : Hash) (req : Request κ) : Option (Sync κ) :=
  if parent = 0 then some (s.schedule req)
  else (s.request parent).map fun ancestor =>
    (s.update { ancestor with deps := ancestor.deps + 1 }).schedule { req with parents := [parent] }

def addSubTrie (root : Hash) (depth : ℕ) (parent : Hash) (callback : Option κ) : Option (Sync κ) :=
  if root = emptyRoot then some s
  else if (s.batch root).isSome then some s
  else match decodeNode (some root) ((s.database root).getD []) 0 with
    | .ok _ => some s
    | .error .panic => none
    | .error (.err _) =>
      s.scheduleUnder parent { hash := root, depth := depth, callback := callback }

def addRawEntry (hash : Hash) (depth : ℕ) (parent : Hash) : Option (Sync κ) :=
  if hash = emptyState then some s
  else if (s.batch hash).isSome then some s
  else if (s.database hash).isSome then some s
  else s.scheduleUnder parent { hash := hash, raw := true, depth := depth }

/-- What the leaf callback asks for. -/
def register (parent : Hash) : Action κ → Option (Sync κ)
  | .subTrie root depth callback => s.addSubTrie root depth parent callback
  | .rawEntry hash depth => s.addRawEntry hash depth parent

/-- What a callback registers for a leaf of the node `parent`. -/
def perform (parent : Hash) : List (Action κ) → Sync κ → Option (Sync κ)
  | [], s => some s
  | action :: rest, s => (s.register parent action).bind (perform parent rest)

def newTrieSync (root : Hash) (database : Hash → Option Bytes) (callback : Option κ) :
    Option (Sync κ) :=
  addSubTrie { database := database } root 0 0 callback

/-- `queue.PopItem`. -/
def popItem (queue : List (Hash × ℕ)) : Option (Hash × List (Hash × ℕ)) :=
  (queue.argmax Prod.snd).map fun x => (x.1, queue.erase x)

/-- The loop of `Missing` for at most `n` items. -/
def popItems : ℕ → List (Hash × ℕ) → List Hash × List (Hash × ℕ)
  | 0, queue => ([], queue)
  | n + 1, queue =>
    match popItem queue with
    | none => ([], queue)
    | some (h, queue) => ((h :: (popItems n queue).1), (popItems n queue).2)

def missing (max : ℕ) : List Hash × Sync κ :=
  let popped := popItems (if max = 0 then s.queue.length else max) s.queue
  (popped.1, { s with queue := popped.2 })

/-- The node goes to the batch. -/
def store (req : Request κ) : Sync κ :=
  { s with
    batch := Function.update s.batch req.hash (some (req.data.getD []))
    order := s.order ++ [req.hash]
    requests := Keyed.erase Request.hash req.hash s.requests }

/-- Count a finished dependency at each parent, and move those that wait for nothing else to the
membatch, their own parents first. -/
def notify : ℕ → Sync κ → List Hash → Sync κ
  | n + 1, s, p :: rest =>
    match s.request p with
    | none => notify n s rest
    | some parent =>
      let parent := { parent with deps := parent.deps - 1 }
      if parent.deps = 0 then notify n ((s.update parent).store parent) (parent.parents ++ rest)
      else notify n (s.update parent) rest
  | _, s, _ => s

/-- A bound on the recursion of `commit`. -/
def weight : ℕ := (s.requests.map fun r => r.parents.length).sum

def commit (req : Request κ) : Sync κ :=
  (s.store req).notify (req.parents.length + (s.store req).weight) req.parents

/-! ## `Process` -/

/-- The children of a node with their depths; `none` is a panic. -/
def kids (depth : ℕ) : Node → Option (List (Node × ℕ))
  | .short key val _ => some [(val, depth + key.length)]
  | .full children _ => some ((List.finRange 17).filterMap fun i =>
      match children i with
      | .nil => none
      | n => some (n, depth + 1))
  | _ => none

section Processing

variable (leaf : LeafCallback κ)

/-- The loop of `children`: the requests for the unknown children, or the error of the callback;
`none` is a panic. -/
def children (req : Request κ) :
    List (Node × ℕ) → List (Request κ) → Sync κ → Option (Sync κ × Option (List (Request κ)))
  | [], requests, s => some (s, some requests)
  | (.value v, _) :: rest, requests, s =>
    match req.callback with
    | none => children req rest requests s
    | some k => (perform req.hash (leaf k v).1 s).bind fun s =>
      if (leaf k v).2 then some (s, none) else children req rest requests s
  | (.hash h, depth) :: rest, requests, s =>
    if (s.batch h).isSome then children req rest requests s
    else if (s.database h).isSome then children req rest requests s
    else children req rest (requests ++ [req.child h depth]) s
  | _ :: rest, requests, s => children req rest requests s

/-- The end of the loop body: commit the request, or schedule its children. -/
def await (s : Sync κ) (req : Request κ) (requests : List (Request κ)) : Sync κ × Bool :=
  if requests.length = 0 ∧ req.deps = 0 then (s.commit req, true)
  else (requests.foldl schedule (s.update { req with deps := req.deps + requests.length }), false)

/-- The loop body of `Process`: whether something was committed, or the error. -/
def processItem (item : SyncResult) (s : Sync κ) : Option (Sync κ × Except SyncErr Bool) :=
  match s.request item.hash with
  | none => some (s, .error .notRequested)
  | some req =>
    if req.data.isSome then some (s, .error .alreadyProcessed)
    else if req.raw then some (s.commit { req with data := some item.data }, .ok true)
    else match decodeNode (some item.hash) item.data 0 with
      | .error .panic => none
      | .error (.err e) => some (s, .error (.undecodable e))
      | .ok node =>
        let req := { req with data := some item.data }
        (kids req.depth node).bind fun nodes =>
          (children leaf req nodes [] (s.update req)).bind fun
            | (s, none) => some (s, .error .callback)
            | (s, some requests) => (s.request item.hash).map fun req =>
              ((s.await req requests).1, .ok (s.await req requests).2)

/-- `Process` from item `i` on: whether something was committed, and the index of a failed item with
the error. -/
def process (i : ℕ) (committed : Bool) :
    List SyncResult → Sync κ → Option (Sync κ × Bool × ℕ × Option SyncErr)
  | [], s => some (s, committed, 0, none)
  | item :: rest, s => (processItem leaf item s).bind fun
    | (s, .error e) => some (s, committed, i, some e)
    | (s, .ok now) => process (i + 1) (committed || now) rest s

end Processing

/-- The database after the keys are written. -/
def written (keys : List Hash) : Hash → Option Bytes :=
  keys.foldl (fun db key => Function.update db key (s.batch key)) s.database

/-- `Commit`; writing the item `fails` returns an error, if there are so many. -/
def flush (fails : Option ℕ) : Sync κ :=
  match fails with
  | none => { s with database := s.written s.order, batch := fun _ => none, order := [] }
  | some i =>
    if i < s.order.length then { s with database := s.written (s.order.take i) }
    else { s with database := s.written s.order, batch := fun _ => none, order := [] }

/-- A call. -/
inductive Step
  | missing (max : ℕ)
  | process (results : List SyncResult)
  | commit (fails : Option ℕ)

/-- One call, whatever it returns; `none` is a panic. -/
def step (leaf : LeafCallback κ) (s : Sync κ) : Step → Option (Sync κ)
  | .missing max => some (s.missing max).2
  | .process results => (process leaf 0 false results s).map (·.1)
  | .commit fails => some (s.flush fails)

def pending : ℕ := s.requests.length

end Sync

end JuChain.Trie
