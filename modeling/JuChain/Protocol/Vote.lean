import JuChain.Protocol.Delegate

/-!
# The vote manager

`dvotehandler.go`: electing the packaging node of a round while there are too few delegates.  A node
counts the votes that arrive, and activates the winner when the timer of the round fires
(`scheduleElecting`).
-/

namespace JuChain.Protocol

open Tally

variable (cfg : Config) (env : Env) (n : Node)

/-- What `getBestNodeInfo` and `getBestNodeInfo2` return. -/
structure BestNode where
  nodeId : Bytes
  tickets : UInt32
  activeTime : UInt64
  deriving DecidableEq

namespace ElectionInfo

/-- An election that starts. -/
def looking (round : UInt64) (tickets : UInt32) (activeTime : UInt64) : ElectionInfo where
  round := round
  enodestate := voteStateLooking
  electionTickets := tickets
  electionNodeId := n.currNodeId
  electionNodeIdHash := n.currNodeIdHash
  activeTime := activeTime
  confirmedTickets := ∅
  confirmedActiveTimes := ∅

/-- Count a vote for a node and remember the active time that came with it. -/
def countVote (info : ElectionInfo) (nodeId : GoString) (activeTime : UInt64) : ElectionInfo :=
  { info with
    confirmedTickets := bump info.confirmedTickets nodeId
    confirmedActiveTimes := info.confirmedActiveTimes.insert nodeId activeTime }

def getBestNodeInfo (info : ElectionInfo) : BestNode :=
  if info.confirmedTickets.entries.length = 0 then
    ⟨info.electionNodeIdHash, info.electionTickets, info.activeTime⟩
  else
    let best := scanMax (env.order info.confirmedTickets.entries) 0 []
    ⟨Hex.decode best.2, best.1, info.confirmedActiveTimes.read best.2⟩

/-- `getBestNodeInfo2`: no tickets when several nodes share the maximum. -/
def getBestNodeInfo2 (info : ElectionInfo) : BestNode :=
  if info.confirmedTickets.entries.length = 0 then
    ⟨info.electionNodeIdHash, info.electionTickets, info.activeTime⟩
  else
    let best := scanMax (env.order info.confirmedTickets.entries) 0 []
    if ties best.1 (env.order info.confirmedTickets.entries) > 1 then ⟨[], 0, 0⟩
    else ⟨Hex.decode best.2, best.1, info.confirmedActiveTimes.read best.2⟩

end ElectionInfo

/-- The timer for the election. -/
def voteTimer (bestActiveTime : UInt64) : List Effect :=
  let leftTime := bestActiveTime.toInt64 - env.now
  if leftTime < 1 then [.go .scheduleElecting] else [.resetT1 leftTime]

def Node.isElectionNode : Bool :=
  match n.electionInfo0 with
  | none => false
  | some info => info.electionNodeId == n.currNodeId

/-! ## Timers -/

/-- `electNodeSafely` on the current round. -/
def electNode (info : ElectionInfo) : List Effect :=
  if info.enodestate = voteStateLooking then
    if cfg.testMode then []
    else if env.peers.length = 0 then [.afterFunc env.retry .electNodeSafely]
    else env.peers.map fun q => .send q (.voteElectionRequest ⟨info.round, info.electionTickets,
      info.activeTime, n.currNodeIdHash⟩)
  else []

def electNodeSafely : Outcome :=
  deref n.nextElectionInfo fun info => done n (electNode cfg env n info)

/-- The end of `scheduleElecting`: look for the best node of a new round. -/
def startRound (round : UInt64) : Node × List Effect :=
  let info := ElectionInfo.looking n round env.ticket
    (env.now + electingInterval.toUInt64.toInt64).toUInt64
  let n := { n with nextElectionInfo := some info }
  (n, .electing round :: electNode cfg env n info ++
    [.afterFunc bnConflictInterval.toUInt64.toInt64 .checkBestNodeConflict])

/-- The round that `scheduleElecting` activates for a best node. -/
def activateRound (info : ElectionInfo) (best : BestNode) : Node :=
  { n with
    lastElectedNodeId := Hex.encode best.nodeId
    electionInfo0 := some { info with
      enodestate := voteStateSelected
      electionTickets := best.tickets
      electionNodeId := Hex.encode best.nodeId
      electionNodeIdHash := best.nodeId
      activeTime := best.activeTime } }

def scheduleElecting : Node × List Effect :=
  let n := n.refresh env
  if n.delegatorsTable.length > 2 then (n, [])
  else
    match n.nextElectionInfo with
    | none =>
      let r := startRound cfg env n 1
      (r.1, .forgetT1 :: r.2)
    | some info =>
      let best := info.getBestNodeInfo2 env
      if best.tickets = 0 ∨ improperGap cfg env best.activeTime then
        ({ n with nextElectionInfo := none }, [.forgetT1, .go .scheduleElecting])
      else
        let r := startRound cfg env (activateRound n info best) (info.round + 1)
        (r.1, .forgetT1 :: .confirmed info.round (Hex.encode best.nodeId) :: r.2)

def checkBestNodeConflict : Outcome :=
  deref n.nextElectionInfo fun info =>
    if info.confirmedTickets.entries.length > 1 ∧ (info.getBestNodeInfo2 env).tickets = 0 then
      done n ((env.peers.map fun q => .send q (.bestNodeConflict ⟨info.round, 1, info.activeTime,
        n.currNodeIdHash⟩)) ++ [.afterFunc bnConflictInterval.toUInt64.toInt64
          .checkBestNodeConflict])
    else done n []

/-- `DVoteProtocolManager.Stop`, without the packager. -/
def Node.stop : Node :=
  if n.delegatorsTable.length > 0 then n
  else
    { n with
      electionInfo0 := n.electionInfo0.map fun info => { info with enodestate := voteStateStop }
      nextElectionInfo :=
        n.nextElectionInfo.map fun info => { info with enodestate := voteStateStop } }

/-! ## Messages -/

/-- The best node is broadcast. -/
def broadcastVoted (info : ElectionInfo) (best : BestNode) : List Effect :=
  env.peers.map fun q => .send q (.votedElectionBroadcast ⟨info.round, best.tickets,
    best.activeTime, voteStateSelected, best.nodeId⟩)

/-- The answer to a request. -/
def voteResponse (info : ElectionInfo) (best : BestNode) (state : UInt8) : Msg :=
  .voteElectionResponse ⟨info.round, best.tickets, best.activeTime, state, best.nodeId⟩

/-- A request of the current round after a selection is counted for its sender, whatever its
tickets. -/
def countRequest (p : GoString) (info : ElectionInfo) (request : VoteElectionRequest) : Outcome :=
  if cfg.testMode then done n []
  else
    firstEight request.nodeId fun id =>
      let info := info.countVote (Hex.encode id) request.activeTime
      let best := info.getBestNodeInfo env
      done { n with nextElectionInfo := some info }
        (voteTimer env best.activeTime ++ [.send p (voteResponse info best voteStateSelected)])

/-- The end of the first request of a round: select, and tell everybody. -/
def selectNode (info : ElectionInfo) : Outcome :=
  let info := { info with enodestate := voteStateSelected }
  let n := { n with nextElectionInfo := some info }
  if cfg.testMode then done n []
  else
    let best := info.getBestNodeInfo env
    done n (voteTimer env best.activeTime ++ broadcastVoted env info best)

/-- The first request of a round: the tickets decide who gets the vote. -/
def compareRequest (info : ElectionInfo) (request : VoteElectionRequest) : Outcome :=
  if request.tickets > info.electionTickets then
    firstEight request.nodeId fun id =>
      selectNode cfg env n (info.countVote (Hex.encode id) request.activeTime)
  else selectNode cfg env n (info.countVote n.currNodeId info.activeTime)

/-- The handler of `VOTE_ElectionNode_Request`. -/
def handleVoteRequest (p : GoString) (request : VoteElectionRequest) : Outcome :=
  match n.nextElectionInfo with
  | none => done n []
  | some info =>
    if request.round = info.round then
      if info.enodestate = voteStateSelected then countRequest cfg env n p info request
      else compareRequest cfg env n info request
    else if request.round < info.round then
      if cfg.testMode then done n []
      else
        done n [.send p (voteResponse info (info.getBestNodeInfo env) voteStateMismatchedRound)]
    else done n []

/-- The handler of `VOTE_ElectionNode_Response`. -/
def handleVoteResponse (response : VoteElectionResponse) : Outcome :=
  match n.nextElectionInfo with
  | none => done n []
  | some info =>
    if response.state = voteStateSelected ∧ info.round = response.round then
      let info := info.countVote (Hex.encode response.electionNodeId) response.activeTime
      let best := info.getBestNodeInfo env
      let timer := voteTimer env best.activeTime
      let n := { n with nextElectionInfo := some info }
      if cfg.testMode then done n timer
      else done n (timer ++ broadcastVoted env info best)
    else if response.state = voteStateMismatchedRound ∧ info.enodestate = voteStateLooking then
      let info := ElectionInfo.looking n response.round 0 response.activeTime
      let n := { n with nextElectionInfo := some info }
      done n (.electing response.round :: electNode cfg env n info)
    else done n []

/-- The handler of `VOTE_BESTNODE_CONFLICT`. -/
def handleBestNodeConflict (p : GoString) (response : BroadcastBestNodeConflict) : Outcome :=
  match n.nextElectionInfo with
  | none => done n []
  | some info =>
    if response.round ≠ info.round then done n []
    else
      let best := info.getBestNodeInfo env
      let timer := voteTimer env best.activeTime
      if cfg.testMode then done n timer
      else done n (timer ++ [.send p (voteResponse info best voteStateSelected)])

/-- The handler of `VOTE_ElectionNode_Broadcast`. -/
def handleVotedBroadcast (response : BroadcastVotedElection) : Outcome :=
  match n.nextElectionInfo with
  | none => done n []
  | some info =>
    if response.round ≠ info.round then done n []
    else
      let info := info.countVote (Hex.encode response.electionNodeId) response.activeTime
      let best := info.getBestNodeInfo env
      let switched := { info with
        enodestate := voteStateSelected
        electionNodeId := Hex.encode best.nodeId
        electionNodeIdHash := best.nodeId
        activeTime := best.activeTime }
      if info.enodestate = voteStateSelected then
        if info.electionNodeIdHash ≠ best.nodeId then
          done { n with nextElectionInfo := some switched } (voteTimer env best.activeTime)
        else done { n with nextElectionInfo := some info } []
      else if info.enodestate = voteStateLooking then
        done { n with nextElectionInfo := some switched } (voteTimer env best.activeTime)
      else done { n with nextElectionInfo := some info } []

/-- `DVoteProtocolManager.handleMsg`; what is no vote goes to the delegate manager. -/
def handleMsg (p : GoString) : Msg → Outcome
  | .voteElectionRequest request => handleVoteRequest cfg env n p request
  | .voteElectionResponse response => handleVoteResponse cfg env n response
  | .bestNodeConflict response => handleBestNodeConflict cfg env n p response
  | .votedElectionBroadcast response => handleVotedBroadcast env n response
  | msg => handleSyncMsg cfg env n p msg

end JuChain.Protocol
