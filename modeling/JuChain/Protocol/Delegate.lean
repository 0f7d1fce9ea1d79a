import JuChain.Protocol.State

/-!
# The delegate manager

`dposhandler.go`: the hand-over between big periods (`syncDelegatedNodeSafely`), the messages by
which delegates agree on the table of the next one, and the slots of a table.
-/

namespace JuChain.Protocol

open Tally

variable (cfg : Config) (env : Env) (n : Node)

/-! ## Slots of a table -/

namespace GigPeriodTable

/-- Start of the slot of position `i`, in the signed arithmetic of the source. -/
def beatStartTime (t : GigPeriodTable) (i : ℕ) : Int64 :=
  t.activeTime.toInt64 + Int64.ofNat i * smallPeriodInterval.toUInt64.toInt64

/-- The closed window of one of the node's slots, or the first seconds of a table of the history
that lists it. -/
def wasHisTurn (t : GigPeriodTable) (history : List GigPeriodTable) (_round : UInt64)
    (nodeId : GoString) (minedTime : Int64) : Bool :=
  (t.delegatedNodes.zipIdx.any fun e =>
    e.1 == nodeId && (decide (t.beatStartTime e.2 ≤ minedTime) &&
      decide (t.beatStartTime e.2 + smallPeriodInterval.toUInt64.toInt64 ≥ minedTime))) ||
  history.any fun v =>
    decide (v.activeTime.toInt64 ≤ minedTime) &&
      decide (v.activeTime.toInt64 + smallPeriodInterval.toUInt64.toInt64 ≥ minedTime) &&
        v.delegatedNodes.any fun id => id == nodeId

/-- `isMyTurn`: the half-open window of one of the node's slots. -/
def isMyTurn (t : GigPeriodTable) (currNodeId : GoString) (currTime : Int64) : Bool :=
  t.delegatedNodes.zipIdx.any fun e =>
    e.1 == currNodeId && (decide (t.beatStartTime e.2 ≤ currTime) &&
      decide (t.beatStartTime e.2 + smallPeriodInterval.toUInt64.toInt64 > currTime))

end GigPeriodTable

/-- The delegates are refreshed. -/
def Node.refresh (env : Env) (n : Node) : Node :=
  { n with delegatorsTable := env.refresh.table, delegatorNodeInfo := env.refresh.nodes }

def Node.isDelegatedNode : Bool :=
  n.delegatorsTable.any fun id => id == n.currNodeId

/-- The timer for the next table. -/
def syncTimer (activeTime : UInt64) : List Effect :=
  let leftTime := activeTime.toInt64 - env.now
  if leftTime < 1 then [.go .syncDelegatedNodeSafely] else [.resetSyncT1 leftTime]

/-- One turn of the loop of `trySyncAllDelegators`, for a node whose `pm.eth.server` is set.  On a
first start it is nil, and `AddPeer` panics. -/
def trySyncDelegator (next : GigPeriodTable) (delegator : GoString) : Except Crash (List Effect) :=
  if env.peers.contains delegator then
    .ok [.send delegator (.syncBigPeriodRequest ⟨next.round, next.activeTime, next.delegatedNodes,
      next.delegatedNodesSign, n.currNodeIdHash⟩)]
  else
    match n.delegatorsTable.findIdx? fun e => e == delegator with
    | none => .ok []
    | some i =>
      match n.delegatorNodeInfo[i]? with
      | none => .error .indexOutOfRange
      | some info => .ok [.addPeer info]

def trySyncAllDelegators (next : GigPeriodTable) : Except Crash (List Effect) :=
  if cfg.testMode then .ok []
  else (next.delegatedNodes.mapM (trySyncDelegator env n next)).map List.flatten

/-- A table of the next big period that nobody has answered yet. -/
def GigPeriodTable.looking (round : UInt64) (nodes : List GoString) (sign : Hash)
    (activeTime : UInt64) : GigPeriodTable where
  round := round
  state := stateLooking
  delegatedNodes := nodes
  delegatedNodesSign := sign
  confirmedTickets := ∅
  confirmedBestNode := ∅
  activeTime := activeTime

/-- Make a fresh table the next one and send it to the delegates. -/
def installNext (log : List Effect) (next : GigPeriodTable) : Outcome :=
  (trySyncAllDelegators cfg env { n with nextGigPeriodInstance := some next } next).map
    fun effects => ⟨{ n with nextGigPeriodInstance := some next }, log ++ effects, none⟩

/-- The gap check of `syncDelegatedNodeSafely`: more than two seconds off. -/
def improperGap (activeTime : UInt64) : Bool :=
  !cfg.testMode &&
    (decide (activeTime.toInt64 - env.now > 2) || decide (activeTime.toInt64 - env.now < -2))

/-- The part of `syncDelegatedNodeSafely` that follows the checks, with the history already
shortened. -/
def switchBigPeriod : Outcome :=
  match n.nextGigPeriodInstance with
  | none =>
    installNext cfg env n [] (.looking 1 n.delegatorsTable
      (cfg.signCandidates n.delegatorsTable)
      (env.now + gigPeriodInterval.toUInt64.toInt64).toUInt64)
  | some next =>
    if improperGap cfg env next.activeTime then
      done { n with nextElectionInfo := none } [.go .syncDelegatedNodeSafely]
    else
      deref n.gigPeriodInstance fun current =>
        if n.gigPeriodHistory.length = 0 then .error .indexOutOfRange
        else
          installNext cfg env
            { n with
              gigPeriodHistory := n.gigPeriodHistory.set (n.gigPeriodHistory.length - 1) next
              gigPeriodInstance := some next }
            [.switched next.round]
            (.looking (next.round + 1) n.delegatorsTable (cfg.signCandidates n.delegatorsTable)
              (current.activeTime + gigPeriodInterval.toUInt64))

/-- The answer of the voting contract is taken over, and a full history loses its first table. -/
def Node.pull : Node :=
  { n.refresh env with
    gigPeriodHistory :=
      if UInt8.ofNat n.gigPeriodHistory.length ≥ bigPeriodHistorySize then
        n.gigPeriodHistory.drop 1
      else n.gigPeriodHistory }

def syncDelegatedNodeSafely : Outcome :=
  if !n.isDelegatedNode then done n []
  else if env.refresh.err then done n []
  else
    let n := n.pull env
    if n.delegatorsTable.length = 0 ∨ env.peers.length = 0 then done n []
    else switchBigPeriod cfg env n

/-! ## Messages -/

/-- The reply to a request. -/
def syncResponse (next : GigPeriodTable) (state : UInt8) : Msg :=
  .syncBigPeriodResponse ⟨next.round, next.activeTime, next.delegatedNodes,
    next.delegatedNodesSign, state, n.currNodeIdHash⟩

/-- The reply is sent. -/
def replySync (p : GoString) (next : GigPeriodTable) (state : UInt8) : Outcome :=
  if cfg.testMode then done n [] else done n [.send p (syncResponse n next state)]

/-- The node agrees to a table. -/
def agreeSyncRequest (next : GigPeriodTable) (request : SyncBigPeriodRequest) : Outcome :=
  let next := { next with
    state := stateConfirmed
    delegatedNodes := request.delegatedTable
    delegatedNodesSign := request.delegatedTableSign
    activeTime := request.activeTime }
  let n := { n with nextGigPeriodInstance := some next }
  let timer := syncTimer env next.activeTime
  if cfg.testMode then done n timer
  else done n (timer ++ env.peers.map fun q => .send q (syncResponse n next stateConfirmed))

/-- A `SYNC_BIGPERIOD_REQUEST` of the round, the next table not being confirmed. -/
def matchSyncRequest (p : GoString) (next : GigPeriodTable) (request : SyncBigPeriodRequest) :
    Outcome :=
  if n.delegatorsTable = request.delegatedTable then agreeSyncRequest cfg env n next request
  else
    let n := if n.delegatorsTable.length < request.delegatedTable.length then n.refresh env else n
    if n.delegatorsTable = request.delegatedTable then agreeSyncRequest cfg env n next request
    else replySync cfg n p next stateMismatchedDNumber

/-- The handler of `SYNC_BIGPERIOD_REQUEST`. -/
def handleSyncRequest (p : GoString) (request : SyncBigPeriodRequest) : Outcome :=
  if cfg.signCandidates request.delegatedTable ≠ request.delegatedTableSign then
    fail n .delegatorSign
  else if n.delegatorsTable.length = 0 then done n []
  else
    deref n.nextGigPeriodInstance fun next =>
      if request.round = next.round then
        if next.state = stateConfirmed then replySync cfg n p next stateConfirmed
        else matchSyncRequest cfg env n p next request
      else if request.round < next.round then replySync cfg n p next stateMismatchedRound
      else
        -- the branch compares with the round of the vote manager and then does nothing
        deref n.nextElectionInfo fun _ => done n []

/-- A report is counted. -/
def GigPeriodTable.countResponse (next : GigPeriodTable) (response : SyncBigPeriodResponse) :
    GigPeriodTable :=
  { next with
    confirmedTickets := bump next.confirmedTickets (Hex.encode response.nodeId)
    confirmedBestNode := next.confirmedBestNode.insert (Hex.encode response.nodeId)
      ⟨response.round, response.delegatedTable, response.delegatedTableSign,
        response.activeTime⟩ }

/-- The id with the most tickets, the first in the order Go lists the map in. -/
def GigPeriodTable.bestNodeId (t : GigPeriodTable) : GoString :=
  (scanMax (env.order t.confirmedTickets.entries) 0 []).2

theorem GigPeriodTable.bestNodeId_spec (t : GigPeriodTable) :
    (∀ k, t.confirmedTickets.read k ≤ t.confirmedTickets.read (t.bestNodeId env)) ∧
      (t.bestNodeId env ∈ t.confirmedTickets ∧ t.confirmedTickets.read (t.bestNodeId env) ≠ 0 ∨
        t.bestNodeId env = [] ∧ ∀ k, t.confirmedTickets.read k = 0) := by
  unfold bestNodeId
  obtain ⟨most, found⟩ := scanMax_map (fun v : UInt32 => UInt32.zero_le)
    (env.order_perm t.confirmedTickets.entries) []
  rcases found with h | ⟨pos, read, mem⟩
  · rw [h] at most ⊢
    have zero : ∀ k, t.confirmedTickets.read k = 0 := fun k => UInt32.le_zero_iff.1 (most k)
    exact ⟨fun k => by rw [zero k]; exact UInt32.zero_le, Or.inr ⟨rfl, zero⟩⟩
  · rw [read]
    exact ⟨most, Or.inl ⟨mem, (UInt32.ne_of_lt pos).symm⟩⟩

/-- The table is confirmed with these delegates. -/
def GigPeriodTable.adopt (t : GigPeriodTable) (nodes : List GoString) (sign : Hash)
    (activeTime : UInt64) : GigPeriodTable :=
  { t with
    state := stateConfirmed
    delegatedNodes := nodes
    delegatedNodesSign := sign
    activeTime := activeTime }

/-- `SYNC_BIGPERIOD_RESPONSE` after the answer has been counted in `next`. -/
def settleSyncResponse (next : GigPeriodTable) (response : SyncBigPeriodResponse) : Outcome :=
  let bestNodeId := next.bestNodeId env
  if next.state = stateConfirmed then
    deref (next.confirmedBestNode.lookup bestNodeId) fun bestNode =>
      done
        { n with nextGigPeriodInstance := some (next.adopt bestNode.delegatedNodes
            bestNode.delegatedNodesSign bestNode.activeTime) }
        (syncTimer env bestNode.activeTime)
  else if next.state = stateLooking ∧
      next.confirmedTickets.read bestNodeId > UInt32.ofNat next.delegatedNodes.length then
    done
      { n with nextGigPeriodInstance := some (next.adopt response.delegatedTable
          response.delegatedTableSign response.activeTime) }
      (syncTimer env response.activeTime)
  else if response.state = stateMismatchedRound then
    installNext cfg env n [] (.looking response.round response.delegatedTable
      response.delegatedTableSign response.activeTime)
  else if response.state = stateMismatchedDNumber then
    done ({ n with nextGigPeriodInstance := some next }.refresh env) []
  else done { n with nextGigPeriodInstance := some next } []

/-- The handler of `SYNC_BIGPERIOD_RESPONSE`. -/
def handleSyncResponse (response : SyncBigPeriodResponse) : Outcome :=
  deref n.nextGigPeriodInstance fun next =>
    if response.round ≠ next.round then done n []
    else if cfg.signCandidates response.delegatedTable ≠ response.delegatedTableSign then
      fail n .delegatorSign
    else settleSyncResponse cfg env n (next.countResponse response) response

/-- `handleMsg` for these codes. -/
def handleSyncMsg (p : GoString) : Msg → Outcome
  | .syncBigPeriodRequest request => handleSyncRequest cfg env n p request
  | .syncBigPeriodResponse response => handleSyncResponse cfg env n response
  | .malformed _ => fail n .decode
  | msg => fail n (.invalidMsgCode msg.code)

end JuChain.Protocol
