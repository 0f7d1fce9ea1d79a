import JuChain.Protocol.Events

/-!
# Which messages panic

The panics are a nil instance, a node id of fewer than eight bytes, a table of delegators without
their node records, and a 32-bit counter that has wrapped to zero (`handlers_complete_iff`).
-/

namespace JuChain.Protocol

open Tally

variable (cfg : Config) (env : Env) (n : Node)

/-! ## Conditions -/

/-- The id of a request is long enough wherever the handler cuts it. -/
def VoteRequestSafe (request : VoteElectionRequest) : Prop :=
  ∀ info, n.nextElectionInfo = some info → request.round = info.round →
    (if info.enodestate = voteStateSelected then cfg.testMode = false
      else info.electionTickets < request.tickets) →
    8 ≤ request.nodeId.length

/-- The instances that a request with a correct signature needs are there. -/
def SyncRequestSafe (request : SyncBigPeriodRequest) : Prop :=
  cfg.signCandidates request.delegatedTable = request.delegatedTableSign →
    n.delegatorsTable ≠ [] →
      ∃ t, n.nextGigPeriodInstance = some t ∧
        (t.round < request.round → n.nextElectionInfo ≠ none)

/-- Every delegate of a table that is known but not connected has a node record. -/
def DelegatorsKnown (table : List GoString) : Prop :=
  ∀ d ∈ table, d ∉ env.peers → ∀ i,
    (n.delegatorsTable.findIdx? fun e => e == d) = some i → i < n.delegatorNodeInfo.length

/-- With this answer counted some counter is not zero (or the empty id is reported), or the node
records suffice to start again. -/
def SyncResponseSafe (response : SyncBigPeriodResponse) : Prop :=
  ∃ t, n.nextGigPeriodInstance = some t ∧
    ∀ tickets, tickets = bump t.confirmedTickets (Hex.encode response.nodeId) →
    response.round = t.round →
    cfg.signCandidates response.delegatedTable = response.delegatedTableSign →
      (t.state = stateConfirmed →
        (∃ k, tickets.read k ≠ 0) ∨ response.nodeId = [] ∨ [] ∈ t.confirmedBestNode) ∧
      (t.state ≠ stateConfirmed →
        ¬ (t.state = stateLooking ∧ ∃ k, UInt32.ofNat t.delegatedNodes.length < tickets.read k) →
        response.state = stateMismatchedRound → cfg.testMode = false →
          DelegatorsKnown env n response.delegatedTable)

/-- The message does not crash the node. -/
def MsgSafe : Msg → Prop
  | .voteElectionRequest request => VoteRequestSafe cfg n request
  | .syncBigPeriodRequest request => SyncRequestSafe cfg n request
  | .syncBigPeriodResponse response => SyncResponseSafe cfg env n response
  | _ => True

/-- The call returns. -/
def Completes {β : Type} (o : Except Crash β) : Prop := ∃ b, o = .ok b

section Completes

variable {β γ : Type}

@[simp] theorem completes_done (effects : List Effect) : Completes (done n effects) :=
  ⟨_, rfl⟩

@[simp] theorem completes_fail (err : ErrResp) : Completes (fail n err) := ⟨_, rfl⟩

@[simp] theorem completes_ok (b : β) : Completes (.ok b : Except Crash β) := ⟨b, rfl⟩

@[simp] theorem not_completes_error (c : Crash) : ¬ Completes (.error c : Except Crash β) := by
  rintro ⟨b, h⟩
  cases h

@[simp] theorem completes_map (o : Except Crash β) (f : β → γ) : Completes (o.map f) ↔ Completes o := by
  cases o with
  | error c | ok b => simp [Except.map]

theorem completes_mapM {α : Type} (f : α → Except Crash β) (as : List α) :
    Completes (as.mapM f) ↔ ∀ a ∈ as, Completes (f a) := by
  induction as with
  | nil => simp [pure, Except.pure]
  | cons a as ih =>
    rw [List.mapM_cons, List.forall_mem_cons, ← ih]
    cases f a with
    | error c => simp [bind, Except.bind]
    | ok b =>
      cases as.mapM f with
      | error c => simp [bind, Except.bind]
      | ok bs => simp [bind, Except.bind, pure, Except.pure]

theorem completes_deref {α : Type} (p : Option α) (f : α → Except Crash β) :
    Completes (deref p f) ↔ ∃ a, p = some a ∧ Completes (f a) := by
  cases p with
  | none | some a => simp

theorem completes_firstEight {id : Bytes} {f : Bytes → Except Crash β}
    (hf : ∀ id, Completes (f id)) : Completes (firstEight id f) ↔ 8 ≤ id.length := by
  unfold firstEight
  split_ifs with short
  · simp only [not_completes_error, false_iff]
    omega
  · simp only [hf, true_iff]
    omega

end Completes

/-! ## Votes -/

theorem completes_selectNode (info : ElectionInfo) : Completes (selectNode cfg env n info) := by
  unfold selectNode
  split_ifs
  · exact completes_done _ _
  · exact completes_done _ _

theorem completes_handleVoteRequest (p : GoString) (request : VoteElectionRequest) :
    Completes (handleVoteRequest cfg env n p request) ↔ VoteRequestSafe cfg n request := by
  unfold handleVoteRequest VoteRequestSafe
  cases hi : n.nextElectionInfo with
  | none => simp
  | some info =>
    simp only [Option.some.injEq, forall_eq']
    by_cases round : request.round = info.round
    · rw [if_pos round]
      by_cases selected : info.enodestate = voteStateSelected
      · simp only [if_pos selected, round, forall_const, countRequest]
        cases test : cfg.testMode with
        | true => simp
        | false =>
          simp only [Bool.false_eq_true, if_false, forall_const]
          exact completes_firstEight fun id => completes_done _ _
      · simp only [if_neg selected, round, forall_const, compareRequest, gt_iff_lt]
        split_ifs with greater
        · simp only [greater, forall_const]
          exact completes_firstEight fun id => completes_selectNode _ _ _ _
        · simp only [greater, false_imp_iff, iff_true]
          exact completes_selectNode _ _ _ _
    · rw [if_neg round]
      simp only [round, false_imp_iff, iff_true]
      split_ifs <;> exact completes_done _ _

theorem completes_handleVoteResponse
    (response : VoteElectionResponse) : Completes (handleVoteResponse cfg env n response) := by
  unfold handleVoteResponse
  split
  · exact completes_done _ _
  · simp only
    split_ifs <;> exact completes_done _ _

theorem completes_handleBestNodeConflict (p : GoString) (response : BroadcastBestNodeConflict) :
    Completes (handleBestNodeConflict cfg env n p response) := by
  unfold handleBestNodeConflict
  split
  · exact completes_done _ _
  · simp only
    split_ifs <;> exact completes_done _ _

theorem completes_handleVotedBroadcast
    (response : BroadcastVotedElection) : Completes (handleVotedBroadcast env n response) := by
  unfold handleVotedBroadcast
  split
  · exact completes_done _ _
  · simp only
    split_ifs <;> exact completes_done _ _

theorem completes_checkBestNodeConflict :
    Completes (checkBestNodeConflict env n) ↔ n.nextElectionInfo ≠ none := by
  unfold checkBestNodeConflict
  rw [completes_deref]
  cases n.nextElectionInfo with
  | none => simp
  | some info =>
    simp only [Option.some.injEq, exists_eq_left', ne_eq, reduceCtorEq, not_false_eq_true, iff_true]
    split_ifs <;> exact completes_done _ _

/-! ## Tables -/

theorem completes_trySyncDelegator (t : GigPeriodTable) (d : GoString) :
    Completes (trySyncDelegator env n t d) ↔ (d ∉ env.peers → ∀ i,
      (n.delegatorsTable.findIdx? fun e => e == d) = some i → i < n.delegatorNodeInfo.length) := by
  unfold trySyncDelegator
  split_ifs with connected
  · simp [List.contains_iff_mem.1 connected]
  · have hd : d ∉ env.peers := fun h => connected (List.contains_iff_mem.2 h)
    simp only [hd, not_false_eq_true, forall_const]
    cases (n.delegatorsTable.findIdx? fun e => e == d) with
    | none => simp
    | some i =>
      simp only [Option.some.injEq, forall_eq']
      by_cases hl : i < n.delegatorNodeInfo.length
      · rw [List.getElem?_eq_getElem hl]
        simp [hl]
      · rw [List.getElem?_eq_none (Nat.le_of_not_lt hl)]
        simp [hl]

theorem completes_installNext (log : List Effect) (t : GigPeriodTable) :
    Completes (installNext cfg env n log t) ↔
      (cfg.testMode = false → DelegatorsKnown env n t.delegatedNodes) := by
  unfold installNext trySyncAllDelegators
  cases cfg.testMode with
  | true => simp
  | false =>
    simp only [Bool.false_eq_true, if_false, completes_map, completes_mapM,
      completes_trySyncDelegator, forall_const]
    exact Iff.rfl

theorem completes_agreeSyncRequest (t : GigPeriodTable)
    (request : SyncBigPeriodRequest) : Completes (agreeSyncRequest cfg env n t request) := by
  unfold agreeSyncRequest
  split_ifs <;> exact completes_done _ _

theorem completes_replySync (p : GoString) (t : GigPeriodTable)
    (state : UInt8) : Completes (replySync cfg n p t state) := by
  unfold replySync
  split_ifs <;> exact completes_done _ _

theorem completes_matchSyncRequest (p : GoString) (t : GigPeriodTable)
    (request : SyncBigPeriodRequest) : Completes (matchSyncRequest cfg env n p t request) := by
  unfold matchSyncRequest
  simp only
  split_ifs
  · exact completes_agreeSyncRequest _ _ _ _ _
  · exact completes_agreeSyncRequest _ _ _ _ _
  · exact completes_replySync _ _ _ _ _
  · exact completes_replySync _ _ _ _ _

theorem completes_handleSyncRequest (p : GoString) (request : SyncBigPeriodRequest) :
    Completes (handleSyncRequest cfg env n p request) ↔ SyncRequestSafe cfg n request := by
  unfold handleSyncRequest SyncRequestSafe
  by_cases signed : cfg.signCandidates request.delegatedTable = request.delegatedTableSign
  · rw [if_neg (not_not.2 signed)]
    by_cases empty : n.delegatorsTable = []
    · simp [empty]
    · have hl : n.delegatorsTable.length ≠ 0 := by simpa using empty
      rw [if_neg hl, completes_deref]
      simp only [signed, empty, ne_eq, not_false_eq_true, forall_const]
      refine exists_congr fun t => and_congr_right fun ht => ?_
      split_ifs with round state less
      · have hr : ¬ t.round < request.round := by rw [round]; exact UInt64.lt_irrefl _
        simp [hr, completes_replySync]
      · have hr : ¬ t.round < request.round := by rw [round]; exact UInt64.lt_irrefl _
        simp [hr, completes_matchSyncRequest]
      · have hr : ¬ t.round < request.round := UInt64.lt_asymm less
        simp [hr, completes_replySync]
      · have hr : t.round < request.round :=
          UInt64.lt_of_le_of_ne (UInt64.not_lt.1 less) (Ne.symm round)
        simp only [completes_deref, hr, forall_const, completes_done, and_true]
        cases n.nextElectionInfo with
        | none | some info => simp
  · simp [signed]

/-- Every id with tickets has a reported table. -/
def GigPeriodTable.Reported (t : GigPeriodTable) : Prop :=
  ∀ k ∈ t.confirmedTickets, k ∈ t.confirmedBestNode

variable {t : GigPeriodTable}

theorem GigPeriodTable.Reported.countResponse (h : t.Reported) (response : SyncBigPeriodResponse) :
    (t.countResponse response).Reported := by
  intro k hk
  rcases (mem_bump _ _ _).1 hk with rfl | hk
  · exact (AList.mem_insert _).2 (Or.inl rfl)
  · exact (AList.mem_insert _).2 (Or.inr (h k hk))

theorem GigPeriodTable.reported_looking (round : UInt64) (nodes : List GoString) (sign : Hash)
    (activeTime : UInt64) : (looking round nodes sign activeTime).Reported := by
  intro k hk
  simp [looking] at hk

theorem GigChange.reported {cfg : Config} {env : Env} {t' : GigPeriodTable} {m : Msg}
    (change : GigChange cfg env t m t') (h : t.Reported) : t'.Reported := by
  cases change with
  | kept | agreed => exact h
  | followed response | passed response => exact h.countResponse response
  | restarted => exact GigPeriodTable.reported_looking _ _ _ _
  | counted response => exact h.countResponse response

theorem lookup_best_isSome_iff (h : t.Reported) :
    (∃ best, t.confirmedBestNode.lookup (t.bestNodeId env) = some best) ↔
      (∃ k, t.confirmedTickets.read k ≠ 0) ∨ [] ∈ t.confirmedBestNode := by
  rw [← Option.isSome_iff_exists, AList.lookup_isSome]
  rcases (t.bestNodeId_spec env).2 with ⟨mem, pos⟩ | ⟨best, zero⟩
  · exact iff_of_true (h _ mem) (Or.inl ⟨_, pos⟩)
  · rw [best]
    constructor
    · intro hb
      exact Or.inr hb
    · rintro (⟨k, hk⟩ | hb)
      · exact absurd (zero k) hk
      · exact hb

theorem threshold_iff (t : GigPeriodTable) (v : UInt32) :
    v < t.confirmedTickets.read (t.bestNodeId env) ↔ ∃ k, v < t.confirmedTickets.read k := by
  constructor
  · intro h
    exact ⟨_, h⟩
  · rintro ⟨k, h⟩
    exact UInt32.lt_of_lt_of_le h ((t.bestNodeId_spec env).1 k)

theorem completes_settleSyncResponse (h : t.Reported) (response : SyncBigPeriodResponse) :
    Completes (settleSyncResponse cfg env n t response) ↔ (t.state = stateConfirmed →
        (∃ k, t.confirmedTickets.read k ≠ 0) ∨ [] ∈ t.confirmedBestNode) ∧
      (t.state ≠ stateConfirmed → ¬ (t.state = stateLooking ∧
          ∃ k, UInt32.ofNat t.delegatedNodes.length < t.confirmedTickets.read k) →
        response.state = stateMismatchedRound → cfg.testMode = false →
          DelegatorsKnown env n response.delegatedTable) := by
  unfold settleSyncResponse
  rw [← threshold_iff env t]
  by_cases confirmed : t.state = stateConfirmed
  · rw [if_pos confirmed, completes_deref]
    simp only [completes_done, and_true, confirmed, forall_const, ne_eq, not_true_eq_false,
      false_imp_iff]
    exact lookup_best_isSome_iff env h
  · rw [if_neg confirmed]
    simp only [confirmed, false_imp_iff, ne_eq, not_false_eq_true, forall_const, true_and]
    split_ifs with passes mismatch number
    · simp [passes]
    · rw [completes_installNext]
      exact ⟨fun known _ _ => known, fun known => known passes mismatch⟩
    · simp [mismatch]
    · simp [mismatch]

/-- `Reported` holds of the next table. -/
def Node.Reported (n : Node) : Prop := ∀ t, n.nextGigPeriodInstance = some t → t.Reported

theorem completes_handleSyncResponse {n : Node} (h : n.Reported) (response : SyncBigPeriodResponse) :
    Completes (handleSyncResponse cfg env n response) ↔ SyncResponseSafe cfg env n response := by
  unfold handleSyncResponse SyncResponseSafe
  rw [completes_deref]
  refine exists_congr fun t => and_congr_right fun ht => ?_
  rw [forall_eq]
  by_cases round : response.round = t.round
  · rw [if_neg (not_not.2 round)]
    by_cases signed : cfg.signCandidates response.delegatedTable = response.delegatedTableSign
    · rw [if_neg (not_not.2 signed),
        completes_settleSyncResponse cfg env n ((h t ht).countResponse response)]
      have hnil : [] ∈ (t.countResponse response).confirmedBestNode ↔
          response.nodeId = [] ∨ [] ∈ t.confirmedBestNode := by
        unfold GigPeriodTable.countResponse
        rw [AList.mem_insert, eq_comm, Hex.encode_eq_nil]
      rw [hnil]
      simp only [round, signed, forall_const]
      exact Iff.rfl
    · simp [signed]
  · simp [round]

/-! ## Reachable states -/

theorem Node.reported_of_reachable {cfg : Config} {n : Node} (reach : n.Reachable cfg) :
    n.Reported := by
  refine reach.invariant (fun _ _ _ t ht => by cases ht) fun n e r h hr t' ht' => ?_
  have step := Event.gigStep hr
  rw [ht'] at step
  generalize hs : some t' = next at step
  cases step with
  | kept => exact h t' hs.symm
  | changed env p m t t'' next change =>
    cases hs
    exact change.reported (h t next)
  | first | switched =>
    cases hs
    exact GigPeriodTable.reported_looking _ _ _ _

/-- A message is handled without a panic exactly when it meets its condition, and
`checkBestNodeConflict` when there is a next round. -/
theorem handlers_complete_iff (reach : n.Reachable cfg) :
    (∀ env p m, Completes (handleMsg cfg env n p m) ↔ MsgSafe cfg env n m) ∧
      ∀ env, Completes (checkBestNodeConflict env n) ↔ n.nextElectionInfo ≠ none := by
  refine ⟨fun env p m => ?_, fun env => completes_checkBestNodeConflict env n⟩
  cases m with
  | voteElectionRequest request => exact completes_handleVoteRequest cfg env n p request
  | voteElectionResponse response =>
    exact iff_of_true (completes_handleVoteResponse cfg env n response) trivial
  | votedElectionBroadcast response =>
    exact iff_of_true (completes_handleVotedBroadcast env n response) trivial
  | bestNodeConflict response =>
    exact iff_of_true (completes_handleBestNodeConflict cfg env n p response) trivial
  | syncBigPeriodRequest request => exact completes_handleSyncRequest cfg env n p request
  | syncBigPeriodResponse response =>
    exact completes_handleSyncResponse cfg env (Node.reported_of_reachable reach) response
  | malformed code | unknown code => exact iff_of_true (completes_fail n _) trivial

theorem handlers_complete_iff_first_round : ∃ n, Node.step (.plain false) (.fresh .sample)
        (.scheduleElecting (.plain 100 [[7]] 5)) = some n ∧
      (∀ env p m, Completes (handleMsg (.plain false) env n p m) ↔ MsgSafe (.plain false) env n m) ∧
      ∀ env, Completes (checkBestNodeConflict env n) ↔ n.nextElectionInfo ≠ none :=
  ⟨_, rfl, handlers_complete_iff _ _ ⟨_, _, _, [.scheduleElecting (.plain 100 [[7]] 5)], rfl⟩⟩

theorem syncResponse_panics_at_start : ¬ ∀ (cfg : Config) (n : Node), n.Reachable cfg →
      ∀ env p m, Completes (handleMsg cfg env n p m) := by
  intro h
  obtain ⟨r, hr⟩ := h (.plain false) (.fresh .sample) ⟨_, _, _, [], rfl⟩
    (.plain 100 [[7]] 5) [7] (.syncBigPeriodResponse ⟨1, 100, [[7]], 0, stateConfirmed, [9]⟩)
  cases hr

end JuChain.Protocol
