import JuChain.Protocol.Ballot

/-!
# The best node and its conflicts

`getBestNodeInfo2` marks a conflict by zero tickets.  Zero is also the answer in a round without
votes when the node's own tickets are zero, and when the only counter has wrapped around to zero.  A
call of `scheduleElecting` that comes too early or too late restarts the round as well
(`query_iff`).
-/

namespace JuChain.Protocol

open Tally

variable {info : ElectionInfo} {cfg : Config}

namespace ElectionInfo

variable {info : ElectionInfo}

theorem getBestNodeInfo2_of_empty (env : Env) (empty : info.confirmedTickets.entries = []) :
    info.getBestNodeInfo2 env =
      ⟨info.electionNodeIdHash, info.electionTickets, info.activeTime⟩ := by
  unfold getBestNodeInfo2
  rw [if_pos (by rw [empty]; rfl)]

theorem getBestNodeInfo2_of_tied (env : Env) (tied : Tied info.confirmedTickets) :
    info.getBestNodeInfo2 env = ⟨[], 0, 0⟩ := by
  have several := (tied_iff_of_scan (fun v : UInt32 => UInt32.zero_le)
    (env.order_perm info.confirmedTickets.entries) []).1 tied
  have voted : info.confirmedTickets.entries.length ≠ 0 := by
    obtain ⟨k, -, -, ⟨mem, -⟩, -⟩ := tied
    exact List.length_pos_of_mem (mem_entries_of_mem mem) |>.ne'
  unfold getBestNodeInfo2
  simp only [if_neg voted, if_pos several]

theorem strictBest_or_wrapped (voted : info.confirmedTickets.entries ≠ [])
    (single : ¬ Tied info.confirmedTickets) : (∃ k, StrictBest info.confirmedTickets k) ∨
      ∃ k, info.confirmedTickets.keys = [k] ∧ info.confirmedTickets.read k = 0 := by
  have perm : info.confirmedTickets.entries.Perm info.confirmedTickets.entries := .refl _
  have zero_le : ∀ v : UInt32, 0 ≤ v := fun v => UInt32.zero_le
  by_cases zero : (scanMax info.confirmedTickets.entries 0 []).1 = 0
  · -- all counters are zero, so every key has the largest one
    have none : ∀ k, info.confirmedTickets.read k = 0 := by
      intro k
      have most := (scanMax_map zero_le perm []).1 k
      rw [zero] at most
      exact UInt32.le_zero_iff.1 most
    have top : ∀ k ∈ info.confirmedTickets, Top info.confirmedTickets k := by
      intro k mem
      refine ⟨mem, fun k' _ => ?_⟩
      rw [none, none]
      exact UInt32.le_refl 0
    have distinct := info.confirmedTickets.keys_nodup
    have keys : info.confirmedTickets.keys ≠ [] := by
      simpa [AList.keys, List.keys] using voted
    obtain ⟨k, rest, hk⟩ := List.exists_cons_of_ne_nil keys
    cases rest with
    | nil => exact Or.inr ⟨k, hk, none k⟩
    | cons k' rest =>
      rw [hk] at distinct
      have ne : k ≠ k' := by
        rintro rfl
        simp at distinct
      refine absurd ⟨k, k', ne, top k ?_, top k' ?_⟩ single
      · rw [AList.mem_keys, hk]
        simp
      · rw [AList.mem_keys, hk]
        simp
  · rw [tied_iff_of_scan zero_le perm []] at single
    exact Or.inl ⟨_, strictBest_of_scan zero_le perm [] zero single⟩

variable {k : GoString}

theorem not_tied_of_strictBest (h : StrictBest info.confirmedTickets k) :
    ¬ Tied info.confirmedTickets := by
  have zero_le : ∀ v : UInt32, 0 ≤ v := fun v => UInt32.zero_le
  rw [tied_iff_of_scan zero_le (.refl _) []]
  obtain ⟨scan, single⟩ := h.scan zero_le (.refl _) []
  rw [scan]
  exact single

theorem not_tied_of_single (single : info.confirmedTickets.keys = [k]) :
    ¬ Tied info.confirmedTickets := by
  rintro ⟨a, b, ne, ⟨ha, -⟩, ⟨hb, -⟩⟩
  rw [AList.mem_keys, single, List.mem_singleton] at ha hb
  exact ne (ha.trans hb.symm)

theorem getBestNodeInfo2_of_wrapped (env : Env) (single : info.confirmedTickets.keys = [k])
    (zero : info.confirmedTickets.read k = 0) : (info.getBestNodeInfo2 env).tickets = 0 := by
  by_contra tickets
  have voted : info.confirmedTickets.entries ≠ [] := by
    intro empty
    simp [AList.keys, List.keys, empty] at single
  obtain ⟨k', best⟩ := strictBest_of_getBestNodeInfo2 env voted tickets
  have mem : k' ∈ info.confirmedTickets := AList.mem_keys.2 (List.mem_keys_of_mem
    (mem_entries_of_read_ne_zero (UInt32.ne_of_lt best.1).symm))
  rw [AList.mem_keys, single, List.mem_singleton] at mem
  have positive := best.1
  rw [mem, zero] at positive
  exact UInt32.lt_irrefl 0 positive

end ElectionInfo

/-! ## The query -/

/-- What `getBestNodeInfo2` should answer about the next round, in any order of the maps, and what
`scheduleElecting` should make of it. -/
structure Query (cfg : Config) (env : Env) (n : Node) (info : ElectionInfo) : Prop where
  stable : ∀ env env', info.getBestNodeInfo2 env = info.getBestNodeInfo2 env'
  best : ∀ env k, Top info.confirmedTickets k → (∀ k', Top info.confirmedTickets k' → k' = k) →
    Hex.encode (info.getBestNodeInfo2 env).nodeId = k ∧
      (info.getBestNodeInfo2 env).tickets = info.confirmedTickets.read k ∧
      (info.getBestNodeInfo2 env).activeTime = info.confirmedActiveTimes.read k
  conflict : ∀ env, (info.getBestNodeInfo2 env).tickets = 0 ↔ Tied info.confirmedTickets
  restarts : (scheduleElecting cfg env n).1.nextElectionInfo = none → Tied info.confirmedTickets

/-- Zero is not a number of tickets: there is a vote or the node's own tickets are not zero, and the
counter of the only candidate has not wrapped around. -/
structure Unambiguous (info : ElectionInfo) : Prop where
  own : info.confirmedTickets.entries = [] → info.electionTickets ≠ 0
  counted : ∀ k, info.confirmedTickets.keys = [k] → info.confirmedTickets.read k ≠ 0

/-- The call is at most two seconds off the active time it goes by: the node's own without votes,
otherwise that of the node with the most. -/
structure Timely (cfg : Config) (env : Env) (info : ElectionInfo) : Prop where
  own : info.confirmedTickets.entries = [] → improperGap cfg env info.activeTime = false
  voted : ∀ k, Top info.confirmedTickets k → (∀ k', Top info.confirmedTickets k' → k' = k) →
    improperGap cfg env (info.confirmedActiveTimes.read k) = false

variable {n : Node} {env : Env}

theorem scheduleElecting_eq_none_iff (next : n.nextElectionInfo = some info) :
    (scheduleElecting cfg env n).1.nextElectionInfo = none ↔
      (n.refresh env).delegatorsTable.length ≤ 2 ∧ ((info.getBestNodeInfo2 env).tickets = 0 ∨
        improperGap cfg env (info.getBestNodeInfo2 env).activeTime) := by
  have next' : (n.refresh env).nextElectionInfo = some info := next
  unfold scheduleElecting
  by_cases active : (n.refresh env).delegatorsTable.length > 2
  · simp [active, next', not_le.2 active]
  · simp only [if_neg active, next', not_lt.1 active, true_and]
    split_ifs with restarts
    · exact iff_of_true rfl restarts
    · exact iff_of_false (Option.some_ne_none _) restarts

theorem not_tied_of_empty (empty : info.confirmedTickets.entries = []) :
    ¬ Tied info.confirmedTickets := by
  rintro ⟨k, -, -, ⟨mem, -⟩, -⟩
  have := mem_entries_of_mem mem
  rw [empty] at this
  cases this

theorem Query.unambiguous (h : Query cfg env n info) : Unambiguous info where
  own := by
    intro empty zero
    have tied := (h.conflict (.plain 0 [] 0)).1 (by rw [info.getBestNodeInfo2_of_empty _ empty, zero])
    exact not_tied_of_empty empty tied
  counted := by
    intro k single zero
    have tied := (h.conflict (.plain 0 [] 0)).1 (info.getBestNodeInfo2_of_wrapped _ single zero)
    exact ElectionInfo.not_tied_of_single single tied

theorem Query.timely (h : Query cfg env n info) (next : n.nextElectionInfo = some info)
    (elects : (n.refresh env).delegatorsTable.length ≤ 2) : Timely cfg env info where
  own := by
    intro empty
    by_contra gap
    refine not_tied_of_empty empty
      (h.restarts ((scheduleElecting_eq_none_iff next).2 ⟨elects, .inr ?_⟩))
    rw [info.getBestNodeInfo2_of_empty env empty]
    simpa using gap
  voted := by
    intro k top unique
    by_contra gap
    obtain ⟨a, b, ne, ha, hb⟩ := h.restarts ((scheduleElecting_eq_none_iff next).2 ⟨elects, .inr (by
      rw [(h.best env k top unique).2.2]
      simpa using gap)⟩)
    exact ne ((unique a ha).trans (unique b hb).symm)

/-- The call of `scheduleElecting` is timely, unless delegates are active. -/
def InTime (cfg : Config) (env : Env) (n : Node) (info : ElectionInfo) : Prop :=
  2 < (n.refresh env).delegatorsTable.length ∨ Timely cfg env info

theorem query_of_answer (next : n.nextElectionInfo = some info) {b : BestNode}
    (answer : ∀ env, info.getBestNodeInfo2 env = b) (tickets : b.tickets ≠ 0)
    (single : ¬ Tied info.confirmedTickets) (inTime : InTime cfg env n info)
    (timely : Timely cfg env info → improperGap cfg env b.activeTime = false)
    (best : ∀ k, Top info.confirmedTickets k → Hex.encode b.nodeId = k ∧
      b.tickets = info.confirmedTickets.read k ∧ b.activeTime = info.confirmedActiveTimes.read k) :
    Query cfg env n info := by
  refine ⟨fun env env' => ?_, fun env k top _ => ?_, fun env => ?_, fun dropped => ?_⟩
  · rw [answer env, answer env']
  · rw [answer env]
    exact best k top
  · rw [answer env]
    exact iff_of_false tickets single
  · have restarts := (scheduleElecting_eq_none_iff next).1 dropped
    rw [answer env] at restarts
    obtain ⟨elects, zero | gap⟩ := restarts
    · exact absurd zero tickets
    · exact absurd gap (by simp [timely (inTime.resolve_left (not_lt.2 elects))])

theorem query_of_strictBest {votes : List Bytes} (next : n.nextElectionInfo = some info)
    (counts : Counts info.confirmedTickets (votes.map Hex.encode)) {k : GoString}
    (best : StrictBest info.confirmedTickets k) (inTime : InTime cfg env n info) :
    Query cfg env n info := by
  have positive : info.confirmedTickets.read k ≠ 0 := (UInt32.ne_of_lt best.1).symm
  obtain ⟨id, -, rfl⟩ := exists_of_strictBest counts best
  have mem : Hex.encode id ∈ info.confirmedTickets :=
    AList.mem_keys.2 (List.mem_keys_of_mem (mem_entries_of_read_ne_zero positive))
  have same : ∀ k', Top info.confirmedTickets k' → k' = Hex.encode id := by
    intro k' top
    by_contra ne
    exact absurd (best.2 k' ne) (UInt32.not_lt.2 (top.2 _ mem))
  have top : Top info.confirmedTickets (Hex.encode id) := by
    refine ⟨mem, fun k' _ => ?_⟩
    by_cases eq : k' = Hex.encode id
    · rw [eq]
      exact UInt32.le_refl _
    · exact UInt32.le_of_lt (best.2 k' eq)
  refine query_of_answer next (fun env => info.getBestNodeInfo2_of_strictBest env best) positive
    (ElectionInfo.not_tied_of_strictBest best) inTime (fun timely => timely.voted _ top same)
    fun k' top => ?_
  rw [same k' top, Hex.decode_encode]
  exact ⟨rfl, rfl, rfl⟩

theorem query_of_tied (cfg : Config) (env : Env) (n : Node) (tied : Tied info.confirmedTickets) :
    Query cfg env n info := by
  have answer := fun env => info.getBestNodeInfo2_of_tied env tied
  refine ⟨fun env env' => ?_, fun env k top unique => ?_, fun env => ?_, fun _ => tied⟩
  · rw [answer env, answer env']
  · obtain ⟨a, b, ne, ha, hb⟩ := tied
    exact absurd ((unique a ha).trans (unique b hb).symm) ne
  · rw [answer env]
    exact iff_of_true rfl tied

theorem query_of_empty (next : n.nextElectionInfo = some info)
    (empty : info.confirmedTickets.entries = []) (own : info.electionTickets ≠ 0)
    (inTime : InTime cfg env n info) : Query cfg env n info := by
  refine query_of_answer next (fun env => info.getBestNodeInfo2_of_empty env empty) own
    (not_tied_of_empty empty) inTime (fun timely => timely.own empty) fun k top => ?_
  have := mem_entries_of_mem top.1
  rw [empty] at this
  cases this

theorem counts_of_reachable (reach : n.Reachable cfg) (next : n.nextElectionInfo = some info) :
    ∃ votes : List Bytes, Counts info.confirmedTickets (votes.map Hex.encode) := by
  have counted : ∃ votes, Counted n votes := by
    refine reach.invariant (I := fun n => ∃ votes, Counted n votes) (fun _ _ _ => ⟨[], nofun⟩) ?_
    rintro n e r ⟨votes, counted⟩ hr
    exact ⟨_, Event.counted hr counted⟩
  obtain ⟨votes, counted⟩ := counted
  exact ⟨votes, counted info next⟩

/-- The query answers as it should, and `scheduleElecting` restarts the round only on a tie, exactly
when zero is not a number of tickets and the call is in time. -/
theorem query_iff (cfg : Config) (env : Env) (n : Node) (reach : n.Reachable cfg)
    (info : ElectionInfo) (next : n.nextElectionInfo = some info) :
    Query cfg env n info ↔ Unambiguous info ∧ InTime cfg env n info := by
  constructor
  · intro query
    exact ⟨query.unambiguous, (lt_or_ge _ _).imp_right (query.timely next)⟩
  rintro ⟨clear, inTime⟩
  by_cases empty : info.confirmedTickets.entries = []
  · exact query_of_empty next empty (clear.own empty) inTime
  by_cases tied : Tied info.confirmedTickets
  · exact query_of_tied cfg env n tied
  obtain ⟨votes, counts⟩ := counts_of_reachable reach next
  rcases ElectionInfo.strictBest_or_wrapped empty tied with ⟨k, best⟩ | ⟨k, single, zero⟩
  · exact query_of_strictBest next counts best inTime
  · exact absurd zero (clear.counted k single)

/-- Five tickets drawn at second 100, and then a node with nine agreed to. -/
def agreedEvents : List Event :=
  [.scheduleElecting (.plain 100 [[7]] 5),
    .msg (.plain 101 [[7]] 5) [7] (.voteElectionRequest ⟨1, 9, 112, [7, 0, 0, 0, 0, 0, 0, 0]⟩)]

/-- The call comes one second before the active time of the other node. -/
theorem query_first_round :
    ∃ n info, Runs.run (Node.step (.plain false)) (.fresh .sample) agreedEvents = some n ∧
      n.nextElectionInfo = some info ∧
      info.confirmedTickets.keys = [Hex.encode [7, 0, 0, 0, 0, 0, 0, 0]] ∧
      Query (.plain false) (.plain 111 [[7]] 5) n info := by
  refine ⟨_, _, rfl, rfl, rfl, (query_iff _ _ _ ⟨_, _, _, agreedEvents, rfl⟩ _ rfl).2
    ⟨⟨?_, ?_⟩, .inr ⟨?_, ?_⟩⟩⟩
  · decide +kernel
  · intro k single
    obtain rfl : Hex.encode [7, 0, 0, 0, 0, 0, 0, 0] = k := List.head_eq_of_cons_eq single
    decide +kernel
  · decide +kernel
  · intro k top _
    obtain rfl : k = Hex.encode [7, 0, 0, 0, 0, 0, 0, 0] :=
      List.mem_singleton.1 (AList.mem_keys.1 top.1)
    decide +kernel

/-- A node that drew zero tickets and has received no vote reports a conflict. -/
theorem zero_tickets_conflict :
    ¬ ∀ (cfg : Config) (env : Env) (n : Node), n.Reachable cfg → ∀ info,
      n.nextElectionInfo = some info → Query cfg env n info := by
  intro h
  have query := h (.plain false) (.plain 110 [[7]] 0)
    (scheduleElecting (.plain false) (.plain 100 [[7]] 0) (.fresh .sample)).1
    ⟨.sample, [], [], [.scheduleElecting (.plain 100 [[7]] 0)], rfl⟩ _ rfl
  exact query.unambiguous.own rfl rfl

end JuChain.Protocol
