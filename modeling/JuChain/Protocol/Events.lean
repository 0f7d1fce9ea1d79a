import JuChain.Lib.Runs
import JuChain.Protocol.Vote
import Mathlib.Data.Option.Basic

/-!
# Runs of one node

An `Event` is one call into the managers: a message of a peer, a callback of a timer or goroutine,
or `Stop`.  A step fails when the call panics.  `GigChange` lists the ways in which a message
changes the table of the next big period, `ElectionChange` those for the next round of the election.
-/

namespace JuChain.Protocol

open Tally Except

variable (cfg : Config) (env : Env) (n : Node) {request : SyncBigPeriodRequest} {m : Msg}
  {state : UInt8}

/-- What a node reacts to. -/
inductive Event where
  | msg (env : Env) (peer : GoString) (msg : Msg)
  | scheduleElecting (env : Env)
  | checkBestNodeConflict (env : Env)
  | electNodeSafely (env : Env)
  | syncDelegatedNodeSafely (env : Env)
  | stop

/-- What the event does. -/
def Event.outcome : Event → Outcome
  | .msg env p m => handleMsg cfg env n p m
  | .scheduleElecting env =>
    done (Protocol.scheduleElecting cfg env n).1 (Protocol.scheduleElecting cfg env n).2
  | .checkBestNodeConflict env => Protocol.checkBestNodeConflict env n
  | .electNodeSafely env => Protocol.electNodeSafely cfg env n
  | .syncDelegatedNodeSafely env => Protocol.syncDelegatedNodeSafely cfg env n
  | .stop => done n.stop []

/-- The variables after a call; `none` when the process panics. -/
def Node.step (e : Event) : Option Node :=
  match e.outcome cfg n with
  | .ok r => some r.node
  | .error _ => none

theorem Node.step_eq_some {cfg : Config} {n n' : Node} {e : Event}
    (h : n.step cfg e = some n') : ∃ r, e.outcome cfg n = .ok r ∧ r.node = n' := by
  unfold Node.step at h
  split at h
  · rename_i r hr
    exact ⟨r, hr, Option.some.inj h⟩
  · cases h

/-- The states that a node can get to after it was created. -/
def Node.Reachable : Prop :=
  ∃ ident delegators infos events,
    Runs.run (Node.step cfg) (Node.init ident delegators infos) events = some n

theorem Node.Reachable.invariant {cfg : Config} {n : Node} (reach : n.Reachable cfg)
    {I : Node → Prop} (start : ∀ ident delegators infos, I (Node.init ident delegators infos))
    (keeps : ∀ (n : Node) (e : Event) (r : Reply), I n → e.outcome cfg n = .ok r → I r.node) :
    I n := by
  obtain ⟨ident, delegators, infos, events, ran⟩ := reach
  refine Runs.run_invariant (fun s e t hs ht => ?_) (start ident delegators infos) ran
  obtain ⟨r, hr, rfl⟩ := Node.step_eq_some ht
  exact keeps s e r hs hr

/-! ## The table of the next big period -/

/-- The answer is counted: it is of the round and its signature is correct. -/
def GigPeriodTable.Accepts (t : GigPeriodTable) (response : SyncBigPeriodResponse) : Prop :=
  response.round = t.round ∧
    cfg.signCandidates response.delegatedTable = response.delegatedTableSign

instance (cfg : Config) (t : GigPeriodTable) (response : SyncBigPeriodResponse) :
    Decidable (t.Accepts cfg response) :=
  inferInstanceAs (Decidable (_ ∧ _))

/-- Not at all, by agreeing with a request, or by counting an answer.  Then a confirmed table
follows the best node's report, another takes the answer's table once the best node passed the
threshold, and otherwise the round may be started again. -/
inductive GigChange (cfg : Config) (env : Env) (t : GigPeriodTable) : Msg → GigPeriodTable → Prop
  | kept (m : Msg)
      (idle : ∀ response, m = .syncBigPeriodResponse response → ¬ t.Accepts cfg response) :
      GigChange cfg env t m t
  | agreed (request : SyncBigPeriodRequest)
      (signed : cfg.signCandidates request.delegatedTable = request.delegatedTableSign)
      (round : request.round = t.round) (state : t.state ≠ stateConfirmed) :
      GigChange cfg env t (.syncBigPeriodRequest request)
        (t.adopt request.delegatedTable request.delegatedTableSign request.activeTime)
  | followed (response : SyncBigPeriodResponse) (best : ReportedTable)
      (accepts : t.Accepts cfg response) (state : t.state = stateConfirmed)
      (reported : (t.countResponse response).confirmedBestNode.lookup
        ((t.countResponse response).bestNodeId env) = some best) :
      GigChange cfg env t (.syncBigPeriodResponse response)
        ((t.countResponse response).adopt best.delegatedNodes best.delegatedNodesSign
          best.activeTime)
  | passed (response : SyncBigPeriodResponse)
      (accepts : t.Accepts cfg response) (state : t.state = stateLooking)
      (tickets : UInt32.ofNat t.delegatedNodes.length <
        (t.countResponse response).confirmedTickets.read
          ((t.countResponse response).bestNodeId env)) :
      GigChange cfg env t (.syncBigPeriodResponse response)
        ((t.countResponse response).adopt response.delegatedTable response.delegatedTableSign
          response.activeTime)
  | restarted (response : SyncBigPeriodResponse)
      (accepts : t.Accepts cfg response) (state : t.state ≠ stateConfirmed)
      (tickets : t.state = stateLooking → ¬ UInt32.ofNat t.delegatedNodes.length <
        (t.countResponse response).confirmedTickets.read
          ((t.countResponse response).bestNodeId env))
      (flag : response.state = stateMismatchedRound) :
      GigChange cfg env t (.syncBigPeriodResponse response)
        (.looking response.round response.delegatedTable response.delegatedTableSign
          response.activeTime)
  | counted (response : SyncBigPeriodResponse)
      (accepts : t.Accepts cfg response) (state : t.state ≠ stateConfirmed)
      (tickets : t.state = stateLooking → ¬ UInt32.ofNat t.delegatedNodes.length <
        (t.countResponse response).confirmedTickets.read
          ((t.countResponse response).bestNodeId env))
      (flag : response.state ≠ stateMismatchedRound) :
      GigChange cfg env t (.syncBigPeriodResponse response) (t.countResponse response)

/-- What a message of the delegate manager changes: the next table and the delegators. -/
def SyncEffect (m : Msg) (n' : Node) : Prop :=
  ∃ next table nodes, Option.Rel (fun t t' => GigChange cfg env t m t') n.nextGigPeriodInstance next ∧
    n' = { n with
      nextGigPeriodInstance := next
      delegatorsTable := table
      delegatorNodeInfo := nodes }

section Sync

variable {cfg : Config} {env : Env} {n : Node} {p : GoString} {r : Reply}
  {response : SyncBigPeriodResponse}

theorem SyncEffect.refreshed (hm : ∀ response, m ≠ .syncBigPeriodResponse response)
    (table : List GoString) (nodes : List NodeInfo) :
    SyncEffect cfg env n m { n with delegatorsTable := table, delegatorNodeInfo := nodes } := by
  refine ⟨n.nextGigPeriodInstance, table, nodes, ?_, rfl⟩
  cases n.nextGigPeriodInstance with
  | none => exact .none
  | some t => exact .some (.kept m fun response h => absurd h (hm response))

theorem SyncEffect.refl (hm : ∀ response, m ≠ .syncBigPeriodResponse response) :
    SyncEffect cfg env n m n :=
  .refreshed hm n.delegatorsTable n.delegatorNodeInfo

variable {t : GigPeriodTable}

theorem SyncEffect.ignored (ht : n.nextGigPeriodInstance = some t)
    (h : ¬ t.Accepts cfg response) : SyncEffect cfg env n (.syncBigPeriodResponse response) n := by
  refine ⟨n.nextGigPeriodInstance, n.delegatorsTable, n.delegatorNodeInfo, ?_, rfl⟩
  rw [ht]
  refine .some (.kept _ fun response' h' => ?_)
  cases h'
  exact h

theorem SyncEffect.of_change {t' : GigPeriodTable} (ht : n.nextGigPeriodInstance = some t)
    (change : GigChange cfg env t m t') (table : List GoString) (nodes : List NodeInfo) :
    SyncEffect cfg env n m { n with
      nextGigPeriodInstance := some t'
      delegatorsTable := table
      delegatorNodeInfo := nodes } := by
  refine ⟨some t', table, nodes, ?_, rfl⟩
  rw [ht]
  exact .some change

theorem installNext_node {log : List Effect} (h : installNext cfg env n log t = .ok r) :
    r.node = { n with nextGigPeriodInstance := some t } := by
  unfold installNext at h
  cases hs : trySyncAllDelegators cfg env { n with nextGigPeriodInstance := some t } t with
  | error c => simp [hs, Except.map] at h
  | ok effects =>
    simp only [hs, Except.map, Except.ok.injEq] at h
    rw [← h]

theorem agreeSyncRequest_effect (ht : n.nextGigPeriodInstance = some t)
    (signed : cfg.signCandidates request.delegatedTable = request.delegatedTableSign)
    (round : request.round = t.round) (state : t.state ≠ stateConfirmed) (table : List GoString)
    (nodes : List NodeInfo)
    (h : agreeSyncRequest cfg env { n with delegatorsTable := table, delegatorNodeInfo := nodes } t
      request = .ok r) : SyncEffect cfg env n (.syncBigPeriodRequest request) r.node := by
  unfold agreeSyncRequest at h
  have key : SyncEffect cfg env n _ _ :=
    .of_change ht (.agreed request signed round state) table nodes
  split at h <;> cases h <;> exact key

theorem replySync_node (h : replySync cfg n p t state = .ok r) : r.node = n := by
  unfold replySync at h
  split at h <;> cases h <;> rfl

theorem matchSyncRequest_effect (ht : n.nextGigPeriodInstance = some t)
    (signed : cfg.signCandidates request.delegatedTable = request.delegatedTableSign)
    (round : request.round = t.round) (state : t.state ≠ stateConfirmed)
    (h : matchSyncRequest cfg env n p t request = .ok r) :
    SyncEffect cfg env n (.syncBigPeriodRequest request) r.node := by
  unfold matchSyncRequest at h
  simp only at h
  split_ifs at h
  · exact agreeSyncRequest_effect ht signed round state n.delegatorsTable n.delegatorNodeInfo h
  · exact agreeSyncRequest_effect ht signed round state env.refresh.table env.refresh.nodes h
  · rw [replySync_node h]
    exact .refreshed (by simp) _ _
  · rw [replySync_node h]
    exact .refl (by simp)

theorem handleSyncRequest_effect (h : handleSyncRequest cfg env n p request = .ok r) :
    SyncEffect cfg env n (.syncBigPeriodRequest request) r.node := by
  unfold handleSyncRequest at h
  split_ifs at h with signed empty
  · cases h
    exact .refl (by simp)
  · cases h
    exact .refl (by simp)
  · obtain ⟨t, ht, h⟩ := deref_eq_ok h
    split_ifs at h with round state less
    · rw [replySync_node h]
      exact .refl (by simp)
    · exact matchSyncRequest_effect ht (not_not.1 signed) round state h
    · rw [replySync_node h]
      exact .refl (by simp)
    · obtain ⟨info, -, h⟩ := deref_eq_ok h
      cases h
      exact .refl (by simp)

theorem settleSyncResponse_effect (ht : n.nextGigPeriodInstance = some t)
    (accepts : t.Accepts cfg response)
    (h : settleSyncResponse cfg env n (t.countResponse response) response = .ok r) :
    SyncEffect cfg env n (.syncBigPeriodResponse response) r.node := by
  unfold settleSyncResponse at h
  simp only at h
  split_ifs at h with confirmed passes mismatch number
  · obtain ⟨best, hb, h⟩ := deref_eq_ok h
    cases h
    exact .of_change ht (.followed response best accepts confirmed hb) _ _
  · cases h
    exact .of_change ht (.passed response accepts passes.1 passes.2) _ _
  · rw [installNext_node h]
    exact .of_change ht
      (.restarted response accepts confirmed (fun l c => passes ⟨l, c⟩) mismatch) _ _
  · cases h
    exact .of_change ht
      (.counted response accepts confirmed (fun l c => passes ⟨l, c⟩) mismatch) _ _
  · cases h
    exact .of_change ht
      (.counted response accepts confirmed (fun l c => passes ⟨l, c⟩) mismatch) _ _

theorem handleSyncResponse_effect (h : handleSyncResponse cfg env n response = .ok r) :
    SyncEffect cfg env n (.syncBigPeriodResponse response) r.node := by
  obtain ⟨t, ht, h⟩ := deref_eq_ok h
  split_ifs at h with round signed
  · cases h
    exact .ignored ht fun accepts => round accepts.1
  · cases h
    exact .ignored ht fun accepts => signed accepts.2
  · exact settleSyncResponse_effect ht ⟨not_not.1 round, not_not.1 signed⟩ h

end Sync

/-! ## The next round of the election -/

/-- The id that a message counts for in a round and the active time it reports: a request counts for
its sender once a node was selected, and before for the winner of the comparison. -/
def ElectionInfo.ballot (info : ElectionInfo) : Msg → Option (Bytes × UInt64)
  | .voteElectionRequest request =>
    if request.round = info.round then
      if info.enodestate = voteStateSelected then
        if cfg.testMode then none else some (request.nodeId.take 8, request.activeTime)
      else if request.tickets > info.electionTickets then
        some (request.nodeId.take 8, request.activeTime)
      else some (n.ident.bytes, info.activeTime)
    else none
  | .voteElectionResponse response =>
    if response.state = voteStateSelected ∧ info.round = response.round then
      some (response.electionNodeId, response.activeTime)
    else none
  | .votedElectionBroadcast response =>
    if response.round = info.round then some (response.electionNodeId, response.activeTime)
    else none
  | _ => none

/-- The message moves a node that is still looking to another round. -/
def ElectionInfo.Moves (info : ElectionInfo) : Msg → Prop
  | .voteElectionResponse response =>
    response.state = voteStateMismatchedRound ∧ info.enodestate = voteStateLooking
  | _ => False

instance (info : ElectionInfo) : (m : Msg) → Decidable (info.Moves m)
  | .voteElectionResponse response =>
    inferInstanceAs (Decidable (response.state = voteStateMismatchedRound ∧
      info.enodestate = voteStateLooking))
  | .voteElectionRequest _ | .votedElectionBroadcast _ | .bestNodeConflict _
  | .syncBigPeriodRequest _ | .syncBigPeriodResponse _ | .malformed _ | .unknown _ => isFalse id

/-- How a message changes the next round: not at all, by its vote, or by moving to the round of an
answer that says the rounds are mismatched. -/
inductive ElectionChange (cfg : Config) (n : Node) (info : ElectionInfo) :
    Msg → ElectionInfo → Prop
  | kept (m : Msg) (vote : info.ballot cfg n m = none) (stays : ¬ info.Moves m) :
      ElectionChange cfg n info m info
  | voted (m : Msg) (id : Bytes) (time : UInt64) (vote : info.ballot cfg n m = some (id, time))
      (state : UInt8) (nodeId : GoString) (hash : Bytes) (activeTime : UInt64)
      (selected : state = voteStateSelected ∨ state = info.enodestate) :
      ElectionChange cfg n info m
        { info.countVote (Hex.encode id) time with
          enodestate := state
          electionNodeId := nodeId
          electionNodeIdHash := hash
          activeTime := activeTime }
  | moved (response : VoteElectionResponse)
      (vote : info.ballot cfg n (.voteElectionResponse response) = none)
      (flag : response.state = voteStateMismatchedRound)
      (state : info.enodestate = voteStateLooking) :
      ElectionChange cfg n info (.voteElectionResponse response)
        (.looking n response.round 0 response.activeTime)

/-- What a message of the vote manager changes: only the next round. -/
def VoteEffect (m : Msg) (n' : Node) : Prop :=
  ∃ next, Option.Rel (fun info info' => ElectionChange cfg n info m info') n.nextElectionInfo next ∧
    n' = { n with nextElectionInfo := next }

section Vote

variable {cfg : Config} {env : Env} {n : Node} {p : GoString} {r : Reply} {info : ElectionInfo}

theorem VoteEffect.of_none (m : Msg) (hn : n.nextElectionInfo = none) : VoteEffect cfg n m n := by
  refine ⟨n.nextElectionInfo, ?_, rfl⟩
  rw [hn]
  exact .none

theorem VoteEffect.of_kept (hi : n.nextElectionInfo = some info)
    (vote : info.ballot cfg n m = none) (stays : ¬ info.Moves m) : VoteEffect cfg n m n := by
  refine ⟨n.nextElectionInfo, ?_, rfl⟩
  rw [hi]
  exact .some (.kept m vote stays)

theorem VoteEffect.of_voted {id : Bytes} {time : UInt64}
    (hi : n.nextElectionInfo = some info) (vote : info.ballot cfg n m = some (id, time))
    (nodeId : GoString) (hash : Bytes) (activeTime : UInt64)
    (selected : state = voteStateSelected ∨ state = info.enodestate) :
    VoteEffect cfg n m { n with
      nextElectionInfo := some { info.countVote (Hex.encode id) time with
        enodestate := state
        electionNodeId := nodeId
        electionNodeIdHash := hash
        activeTime := activeTime } } := by
  refine ⟨_, ?_, rfl⟩
  rw [hi]
  exact .some (.voted m id time vote state nodeId hash activeTime selected)

theorem selectNode_effect {id : Bytes} {time : UInt64}
    (hi : n.nextElectionInfo = some info) (vote : info.ballot cfg n m = some (id, time))
    (h : selectNode cfg env n (info.countVote (Hex.encode id) time) = .ok r) :
    VoteEffect cfg n m r.node := by
  unfold selectNode at h
  have key : VoteEffect cfg n m _ :=
    .of_voted hi vote info.electionNodeId info.electionNodeIdHash info.activeTime (Or.inl rfl)
  split at h <;> cases h <;> exact key

theorem handleVoteRequest_effect {request : VoteElectionRequest}
    (h : handleVoteRequest cfg env n p request = .ok r) :
    VoteEffect cfg n (.voteElectionRequest request) r.node := by
  unfold handleVoteRequest at h
  cases hi : n.nextElectionInfo with
  | none =>
    rw [hi] at h
    cases h
    exact .of_none _ hi
  | some info =>
    rw [hi] at h
    simp only at h
    split_ifs at h with round selected less test
    · unfold countRequest at h
      split_ifs at h with test
      · cases h
        exact .of_kept hi (by simp [ElectionInfo.ballot, round, selected, test]) id
      · obtain ⟨-, h⟩ := firstEight_eq_ok h
        cases h
        exact .of_voted hi (by simp [ElectionInfo.ballot, round, selected, test]) _ _ _ (Or.inr rfl)
    · unfold compareRequest at h
      split_ifs at h with greater
      · obtain ⟨-, h⟩ := firstEight_eq_ok h
        exact selectNode_effect hi (by simp [ElectionInfo.ballot, round, selected, greater]) h
      · exact selectNode_effect hi (by simp [ElectionInfo.ballot, round, selected, greater]) h
    all_goals
      cases h
      exact .of_kept hi (by simp [ElectionInfo.ballot, round]) id

theorem handleVoteResponse_effect {response : VoteElectionResponse}
    (h : handleVoteResponse cfg env n response = .ok r) :
    VoteEffect cfg n (.voteElectionResponse response) r.node := by
  unfold handleVoteResponse at h
  cases hi : n.nextElectionInfo with
  | none =>
    rw [hi] at h
    cases h
    exact .of_none _ hi
  | some info =>
    rw [hi] at h
    simp only at h
    split_ifs at h with counts test moves
    · cases h
      exact .of_voted hi (by simp [ElectionInfo.ballot, counts]) _ _ _ (Or.inr rfl)
    · cases h
      exact .of_voted hi (by simp [ElectionInfo.ballot, counts]) _ _ _ (Or.inr rfl)
    · cases h
      refine ⟨_, ?_, rfl⟩
      rw [hi]
      exact .some (.moved response (by simp [ElectionInfo.ballot, counts]) moves.1 moves.2)
    · cases h
      exact .of_kept hi (by simp [ElectionInfo.ballot, counts]) moves

theorem handleBestNodeConflict_effect {response : BroadcastBestNodeConflict}
    (h : handleBestNodeConflict cfg env n p response = .ok r) :
    VoteEffect cfg n (.bestNodeConflict response) r.node := by
  unfold handleBestNodeConflict at h
  cases hi : n.nextElectionInfo with
  | none =>
    rw [hi] at h
    cases h
    exact .of_none _ hi
  | some info =>
    rw [hi] at h
    simp only at h
    split_ifs at h <;> cases h <;> exact .of_kept hi rfl id

theorem handleVotedBroadcast_effect {response : BroadcastVotedElection}
    (h : handleVotedBroadcast env n response = .ok r) :
    VoteEffect cfg n (.votedElectionBroadcast response) r.node := by
  unfold handleVotedBroadcast at h
  cases hi : n.nextElectionInfo with
  | none =>
    rw [hi] at h
    cases h
    exact .of_none _ hi
  | some info =>
    rw [hi] at h
    simp only at h
    by_cases round : response.round = info.round
    · have vote : info.ballot cfg n (.votedElectionBroadcast response) =
          some (response.electionNodeId, response.activeTime) := by
        simp [ElectionInfo.ballot, round]
      rw [if_neg (not_not.2 round)] at h
      split_ifs at h
      · cases h
        exact .of_voted hi vote _ _ _ (Or.inl rfl)
      · cases h
        exact .of_voted hi vote _ _ _ (Or.inr rfl)
      · cases h
        exact .of_voted hi vote _ _ _ (Or.inl rfl)
      · cases h
        exact .of_voted hi vote _ _ _ (Or.inr rfl)
    · rw [if_pos round] at h
      cases h
      exact .of_kept hi (by simp [ElectionInfo.ballot, round]) id

end Vote

/-! ## The calls -/

/-- What a message changes. -/
def MsgEffect (m : Msg) (n' : Node) : Prop :=
  ∃ info next table nodes,
    Option.Rel (fun i i' => ElectionChange cfg n i m i') n.nextElectionInfo info ∧
    Option.Rel (fun t t' => GigChange cfg env t m t') n.nextGigPeriodInstance next ∧
    n' = { n with
      nextElectionInfo := info
      nextGigPeriodInstance := next
      delegatorsTable := table
      delegatorNodeInfo := nodes }

/-- The ends of `scheduleElecting`: enough delegates, no round yet, the round is dropped, or it is
activated and the next one started. -/
inductive ElectingChange (cfg : Config) (env : Env) (n : Node) : Node × List Effect → Prop
  | enough (many : 2 < env.refresh.table.length) : ElectingChange cfg env n (n.refresh env, [])
  | first (few : ¬ 2 < env.refresh.table.length) (next : n.nextElectionInfo = none) :
      ElectingChange cfg env n ((startRound cfg env (n.refresh env) 1).1,
        .forgetT1 :: (startRound cfg env (n.refresh env) 1).2)
  | dropped (few : ¬ 2 < env.refresh.table.length) (info : ElectionInfo)
      (next : n.nextElectionInfo = some info) :
      ElectingChange cfg env n ({ n.refresh env with nextElectionInfo := none },
        [.forgetT1, .go .scheduleElecting])
  | activated (few : ¬ 2 < env.refresh.table.length) (info : ElectionInfo) (best : BestNode)
      (next : n.nextElectionInfo = some info)
      (isBest : info.getBestNodeInfo2 env = best) (tickets : best.tickets ≠ 0)
      (gap : improperGap cfg env best.activeTime = false) :
      ElectingChange cfg env n
        ((startRound cfg env (activateRound (n.refresh env) info best) (info.round + 1)).1,
          .forgetT1 :: .confirmed info.round (Hex.encode best.nodeId) ::
            (startRound cfg env (activateRound (n.refresh env) info best) (info.round + 1)).2)

/-- The ends of `syncDelegatedNodeSafely`: nothing to do, no table yet, too early or too late, and
the switch. -/
inductive PeriodChange (cfg : Config) (env : Env) (n : Node) : Node → Prop
  | idle : PeriodChange cfg env n n
  | pulled : PeriodChange cfg env n (n.pull env)
  | first (next : n.nextGigPeriodInstance = none) :
      PeriodChange cfg env n { n.pull env with
        nextGigPeriodInstance := some (.looking 1 env.refresh.table
          (cfg.signCandidates env.refresh.table)
          (env.now + gigPeriodInterval.toUInt64.toInt64).toUInt64) }
  | delayed (t : GigPeriodTable) (next : n.nextGigPeriodInstance = some t)
      (gap : improperGap cfg env t.activeTime = true) :
      PeriodChange cfg env n { n.pull env with nextElectionInfo := none }
  | switched (t current : GigPeriodTable) (next : n.nextGigPeriodInstance = some t)
      (gap : improperGap cfg env t.activeTime = false)
      (active : n.gigPeriodInstance = some current) :
      PeriodChange cfg env n { n.pull env with
        gigPeriodHistory :=
          (n.pull env).gigPeriodHistory.set ((n.pull env).gigPeriodHistory.length - 1) t
        gigPeriodInstance := some t
        nextGigPeriodInstance := some (.looking (t.round + 1) env.refresh.table
          (cfg.signCandidates env.refresh.table)
          (current.activeTime + gigPeriodInterval.toUInt64)) }

section Calls

variable {cfg : Config} {env : Env} {n n' : Node} {p : GoString} {m : Msg} {r : Reply}

theorem VoteEffect.msgEffect (hm : ∀ response, m ≠ .syncBigPeriodResponse response)
    (h : VoteEffect cfg n m n') : MsgEffect cfg env n m n' := by
  obtain ⟨info, change, h⟩ := h
  refine ⟨info, n.nextGigPeriodInstance, n.delegatorsTable, n.delegatorNodeInfo, change, ?_, h⟩
  cases n.nextGigPeriodInstance with
  | none => exact .none
  | some t => exact .some (.kept m fun response h => absurd h (hm response))

theorem SyncEffect.msgEffect (hm : ∀ info : ElectionInfo, info.ballot cfg n m = none ∧ ¬ info.Moves m)
    (h : SyncEffect cfg env n m n') : MsgEffect cfg env n m n' := by
  obtain ⟨next, table, nodes, change, h⟩ := h
  refine ⟨n.nextElectionInfo, next, table, nodes, ?_, change, h⟩
  cases n.nextElectionInfo with
  | none => exact .none
  | some info => exact .some (.kept m (hm info).1 (hm info).2)

theorem handleMsg_effect (h : handleMsg cfg env n p m = .ok r) : MsgEffect cfg env n m r.node := by
  cases m with
  | voteElectionRequest request => exact (handleVoteRequest_effect h).msgEffect (by simp)
  | voteElectionResponse response => exact (handleVoteResponse_effect h).msgEffect (by simp)
  | votedElectionBroadcast response => exact (handleVotedBroadcast_effect h).msgEffect (by simp)
  | bestNodeConflict response => exact (handleBestNodeConflict_effect h).msgEffect (by simp)
  | syncBigPeriodRequest request => exact (handleSyncRequest_effect h).msgEffect fun _ => ⟨rfl, id⟩
  | syncBigPeriodResponse response => exact (handleSyncResponse_effect h).msgEffect fun _ => ⟨rfl, id⟩
  | malformed code | unknown code =>
    cases h
    exact (SyncEffect.refl (by simp)).msgEffect fun _ => ⟨rfl, id⟩

theorem scheduleElecting_change (cfg : Config) (env : Env) (n : Node) :
    ElectingChange cfg env n (scheduleElecting cfg env n) := by
  unfold scheduleElecting
  simp only
  split_ifs with many
  · exact .enough many
  · have few : ¬ 2 < env.refresh.table.length := many
    have hr : (n.refresh env).nextElectionInfo = n.nextElectionInfo := rfl
    cases hi : n.nextElectionInfo with
    | none =>
      rw [hi] at hr
      rw [hr]
      exact .first few hi
    | some info =>
      rw [hi] at hr
      rw [hr]
      simp only
      split_ifs with drop
      · exact .dropped few info hi
      · rw [not_or, Bool.not_eq_true] at drop
        exact .activated few info _ hi rfl drop.1 drop.2

theorem switchBigPeriod_change (h : switchBigPeriod cfg env (n.pull env) = .ok r) :
    PeriodChange cfg env n r.node := by
  unfold switchBigPeriod at h
  split at h
  · rename_i ht
    rw [installNext_node h]
    exact .first ht
  · rename_i t ht
    split_ifs at h with gap
    · cases h
      exact .delayed t ht gap
    · obtain ⟨current, -, h⟩ := deref_eq_ok h
      cases h
    · obtain ⟨current, hc, h⟩ := deref_eq_ok h
      rw [installNext_node h]
      exact .switched t current ht (by simpa using gap) hc

theorem syncDelegatedNodeSafely_change (h : syncDelegatedNodeSafely cfg env n = .ok r) :
    PeriodChange cfg env n r.node := by
  unfold syncDelegatedNodeSafely at h
  simp only at h
  split_ifs at h
  · cases h
    exact .idle
  · cases h
    exact .idle
  · cases h
    exact .pulled
  · exact switchBigPeriod_change h

end Calls

/-! ## All calls at once -/

/-- What an event does to the next table. -/
inductive GigStep (cfg : Config) (n : Node) : Event → Option GigPeriodTable → Prop
  | kept (e : Event) : GigStep cfg n e n.nextGigPeriodInstance
  | changed (env : Env) (p : GoString) (m : Msg) (t t' : GigPeriodTable)
      (next : n.nextGigPeriodInstance = some t) (change : GigChange cfg env t m t') :
      GigStep cfg n (.msg env p m) (some t')
  | first (env : Env) (next : n.nextGigPeriodInstance = none) (nodes : List GoString)
      (sign : Hash) (activeTime : UInt64) :
      GigStep cfg n (.syncDelegatedNodeSafely env) (some (.looking 1 nodes sign activeTime))
  | switched (env : Env) (t current : GigPeriodTable) (next : n.nextGigPeriodInstance = some t)
      (active : n.gigPeriodInstance = some current) (nodes : List GoString) (sign : Hash)
      (activeTime : UInt64) :
      GigStep cfg n (.syncDelegatedNodeSafely env)
        (some (.looking (t.round + 1) nodes sign activeTime))

/-- What an event does to the next election. -/
inductive ElectionStep (cfg : Config) (n : Node) : Event → Option ElectionInfo → Prop
  | kept (e : Event) (quiet : ∀ env p m, e ≠ .msg env p m)
      (many : ∀ env, e = .scheduleElecting env → 2 < env.refresh.table.length) :
      ElectionStep cfg n e n.nextElectionInfo
  | changed (env : Env) (p : GoString) (m : Msg) (info info' : ElectionInfo)
      (next : n.nextElectionInfo = some info) (change : ElectionChange cfg n info m info') :
      ElectionStep cfg n (.msg env p m) (some info')
  | absent (env : Env) (p : GoString) (m : Msg) (next : n.nextElectionInfo = none) :
      ElectionStep cfg n (.msg env p m) none
  | first (env : Env) (few : ¬ 2 < env.refresh.table.length) (next : n.nextElectionInfo = none)
      (tickets : UInt32) (activeTime : UInt64) :
      ElectionStep cfg n (.scheduleElecting env) (some (.looking n 1 tickets activeTime))
  | activated (env : Env) (few : ¬ 2 < env.refresh.table.length) (info : ElectionInfo)
      (next : n.nextElectionInfo = some info) (tickets : UInt32) (activeTime : UInt64) :
      ElectionStep cfg n (.scheduleElecting env)
        (some (.looking n (info.round + 1) tickets activeTime))
  | dropped (e : Event) (quiet : ∀ env p m, e ≠ .msg env p m) : ElectionStep cfg n e none
  | stopped (info : ElectionInfo) (next : n.nextElectionInfo = some info) :
      ElectionStep cfg n .stop (some { info with enodestate := voteStateStop })

section Steps

variable {cfg : Config} {n : Node} {e : Event} {r : Reply}

theorem checkBestNodeConflict_node {env : Env} (h : checkBestNodeConflict env n = .ok r) :
    r.node = n := by
  obtain ⟨info, -, h⟩ := deref_eq_ok h
  split_ifs at h <;> cases h <;> rfl

theorem electNodeSafely_node {env : Env} (h : electNodeSafely cfg env n = .ok r) : r.node = n := by
  obtain ⟨info, -, h⟩ := deref_eq_ok h
  cases h
  rfl

section

variable (h : e.outcome cfg n = .ok r)
include h

theorem Event.ident : r.node.ident = n.ident := by
  cases e with
  | msg env p m =>
    obtain ⟨info, next, table, nodes, -, -, hn⟩ := handleMsg_effect h
    rw [hn]
  | scheduleElecting env =>
    have change := scheduleElecting_change cfg env n
    obtain rfl := ok.inj h
    generalize Protocol.scheduleElecting cfg env n = out at change
    cases change <;> rfl
  | checkBestNodeConflict env => rw [checkBestNodeConflict_node h]
  | electNodeSafely env => rw [electNodeSafely_node h]
  | syncDelegatedNodeSafely env =>
    have change := syncDelegatedNodeSafely_change h
    generalize r.node = n' at change
    cases change <;> rfl
  | stop =>
    obtain rfl := ok.inj h
    simp only [Node.stop]
    split_ifs <;> rfl

theorem Event.gigPeriodInstance_eq_none (idle : n.gigPeriodInstance = none) :
    r.node.gigPeriodInstance = none := by
  cases e with
  | msg env p m =>
    obtain ⟨info, next, table, nodes, -, -, hn⟩ := handleMsg_effect h
    rw [hn]
    exact idle
  | scheduleElecting env =>
    have change := scheduleElecting_change cfg env n
    obtain rfl := ok.inj h
    generalize Protocol.scheduleElecting cfg env n = out at change
    cases change <;> exact idle
  | checkBestNodeConflict env => exact checkBestNodeConflict_node h ▸ idle
  | electNodeSafely env => exact electNodeSafely_node h ▸ idle
  | syncDelegatedNodeSafely env =>
    have change := syncDelegatedNodeSafely_change h
    generalize r.node = n' at change
    cases change with
    | switched t current next gap active => rw [idle] at active; cases active
    | _ => exact idle
  | stop =>
    obtain rfl := ok.inj h
    simp only [Node.stop]
    split_ifs <;> exact idle

theorem Event.gigStep : GigStep cfg n e r.node.nextGigPeriodInstance := by
  cases e with
  | msg env p m =>
    obtain ⟨info, next, table, nodes, -, change, hn⟩ := handleMsg_effect h
    rw [hn]
    cases ht : n.nextGigPeriodInstance with
    | none =>
      rw [ht] at change
      cases change
      exact ht ▸ .kept _
    | some t =>
      rw [ht] at change
      cases change with
      | some change => exact .changed env p m t _ ht change
  | scheduleElecting env =>
    have change := scheduleElecting_change cfg env n
    obtain rfl := ok.inj h
    generalize Protocol.scheduleElecting cfg env n = out at change
    cases change <;> exact .kept _
  | checkBestNodeConflict env => exact checkBestNodeConflict_node h ▸ .kept _
  | electNodeSafely env => exact electNodeSafely_node h ▸ .kept _
  | syncDelegatedNodeSafely env =>
    have change := syncDelegatedNodeSafely_change h
    generalize r.node = n' at change
    cases change with
    | idle | pulled => exact .kept _
    | first next => exact .first env next _ _ _
    | delayed t next => exact .kept _
    | switched t current next gap active => exact .switched env t current next active _ _ _
  | stop =>
    obtain rfl := ok.inj h
    simp only [Node.stop]
    split_ifs <;> exact .kept _

theorem Event.electionStep : ElectionStep cfg n e r.node.nextElectionInfo := by
  cases e with
  | msg env p m =>
    obtain ⟨info, next, table, nodes, change, -, hn⟩ := handleMsg_effect h
    rw [hn]
    cases hi : n.nextElectionInfo with
    | none =>
      rw [hi] at change
      cases change
      exact .absent env p m hi
    | some info =>
      rw [hi] at change
      cases change with
      | some change => exact .changed env p m info _ hi change
  | scheduleElecting env =>
    have change := scheduleElecting_change cfg env n
    obtain rfl := ok.inj h
    generalize Protocol.scheduleElecting cfg env n = out at change
    cases change with
    | enough many =>
      refine .kept _ (by simp) fun env' h' => ?_
      cases h'
      exact many
    | first few next => exact .first env few next _ _
    | dropped few info next => exact .dropped _ (by simp)
    | activated few info best next => exact .activated env few info next _ _
  | checkBestNodeConflict env => exact checkBestNodeConflict_node h ▸ .kept _ (by simp) (by simp)
  | electNodeSafely env => exact electNodeSafely_node h ▸ .kept _ (by simp) (by simp)
  | syncDelegatedNodeSafely env =>
    have change := syncDelegatedNodeSafely_change h
    generalize r.node = n' at change
    cases change with
    | delayed t next => exact .dropped _ (by simp)
    | _ => exact .kept _ (by simp) (by simp)
  | stop =>
    obtain rfl := ok.inj h
    simp only [Node.stop]
    split_ifs
    · exact .kept _ (by simp) (by simp)
    · cases hi : n.nextElectionInfo with
      | none => exact .dropped _ (by simp)
      | some info => exact .stopped info hi

end

end Steps

end JuChain.Protocol
