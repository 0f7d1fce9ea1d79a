import JuChain.Protocol.Events

/-!
# What the counters of a round count

Every vote message adds one to the counter of the id it names, whoever sent it and however often it
came. The votes of the current round are kept beside the variables (`Ballots`).
-/

namespace JuChain.Protocol

open Tally Hex

variable {id : Bytes} {k : GoString} {cfg : Config}

/-! ## The best node -/

namespace ElectionInfo

variable {info : ElectionInfo}

theorem getBestNodeInfo2_of_strictBest (env : Env) (h : StrictBest info.confirmedTickets k) :
    info.getBestNodeInfo2 env = ⟨decode k, info.confirmedTickets.read k,
      info.confirmedActiveTimes.read k⟩ := by
  have hne : info.confirmedTickets.entries.length ≠ 0 := by
    intro h0
    have hm := mem_entries_of_read_ne_zero (UInt32.ne_of_lt h.1).symm
    rw [List.length_eq_zero_iff.1 h0] at hm
    cases hm
  obtain ⟨scan, single⟩ := h.scan (fun v : UInt32 => UInt32.zero_le)
    (env.order_perm info.confirmedTickets.entries) []
  unfold getBestNodeInfo2
  simp only [if_neg hne, scan, if_neg single]

theorem strictBest_of_getBestNodeInfo2 (env : Env)
    (hne : info.confirmedTickets.entries ≠ []) (h : (info.getBestNodeInfo2 env).tickets ≠ 0) :
    ∃ k, StrictBest info.confirmedTickets k := by
  have hne : info.confirmedTickets.entries.length ≠ 0 := by simpa using hne
  unfold getBestNodeInfo2 at h
  simp only [if_neg hne] at h
  split_ifs at h with several
  · exact absurd rfl h
  · exact ⟨_, strictBest_of_scan (fun v : UInt32 => UInt32.zero_le)
      (env.order_perm info.confirmedTickets.entries) [] h several⟩

/-- The node is the best one, whatever the order of the map. -/
def Reports (info : ElectionInfo) (id : Bytes) : Prop :=
  ∀ env, (info.getBestNodeInfo2 env).tickets ≠ 0 ∧ (info.getBestNodeInfo2 env).nodeId = id

/-- There is no best node. -/
def Conflicts (info : ElectionInfo) : Prop := ∀ env, (info.getBestNodeInfo2 env).tickets = 0

end ElectionInfo

section Winner

variable {info : ElectionInfo} {votes : List Bytes}

section

variable (counts : Counts info.confirmedTickets (votes.map encode))
include counts

theorem entries_ne_nil (voted : votes ≠ []) : info.confirmedTickets.entries ≠ [] := by
  obtain ⟨id, rest, rfl⟩ := List.exists_cons_of_ne_nil voted
  have hm : encode id ∈ info.confirmedTickets := (counts.mem _).2 (by simp)
  rw [AList.mem_keys] at hm
  intro h0
  simp [AList.keys, List.keys, h0] at hm

theorem strictBest_iff_leads (small : votes.length < 2 ^ 32) (id : Bytes) :
    StrictBest info.confirmedTickets (encode id) ↔ Leads votes id := by
  rw [counts.strictBest_iff (by simpa using small), leads_map encode_injective]

theorem exists_of_strictBest (h : StrictBest info.confirmedTickets k) :
    ∃ id ∈ votes, k = encode id := by
  have hm := mem_entries_of_read_ne_zero (UInt32.ne_of_lt h.1).symm
  have hk : k ∈ info.confirmedTickets := by
    exact List.mem_keys_of_mem hm
  obtain ⟨id, hid, rfl⟩ := List.mem_map.1 ((counts.mem k).1 hk)
  exact ⟨id, hid, rfl⟩

end

theorem reports_of_strictBest (h : StrictBest info.confirmedTickets (encode id)) : info.Reports id := by
  intro env
  rw [ElectionInfo.getBestNodeInfo2_of_strictBest env h]
  exact ⟨(UInt32.ne_of_lt h.1).symm, decode_encode id⟩

section

variable (counts : Counts info.confirmedTickets (votes.map encode))
include counts

theorem strictBest_of_reports (voted : votes ≠ []) {env : Env}
    (h : (info.getBestNodeInfo2 env).tickets ≠ 0 ∧ (info.getBestNodeInfo2 env).nodeId = id) :
    StrictBest info.confirmedTickets (encode id) := by
  obtain ⟨k, hk⟩ := ElectionInfo.strictBest_of_getBestNodeInfo2 env
    (entries_ne_nil counts voted) h.1
  obtain ⟨id', -, rfl⟩ := exists_of_strictBest counts hk
  have hid := h.2
  rw [ElectionInfo.getBestNodeInfo2_of_strictBest env hk] at hid
  simp only [decode_encode] at hid
  exact hid ▸ hk

theorem reports_iff (voted : votes ≠ []) (small : votes.length < 2 ^ 32) (id : Bytes) :
    info.Reports id ↔ Leads votes id := by
  rw [← strictBest_iff_leads counts small]
  exact ⟨fun h => strictBest_of_reports counts voted (h (.plain 0 [] 0)), reports_of_strictBest⟩

theorem conflicts_of_no_leader (voted : votes ≠ []) (small : votes.length < 2 ^ 32)
    (h : ¬ ∃ id, Leads votes id) : info.Conflicts := by
  intro env
  by_contra ht
  have best := strictBest_of_reports counts voted ⟨ht, rfl⟩
  exact h ⟨_, (strictBest_iff_leads counts small _).1 best⟩

end

end Winner

/-! ## Runs -/

/-- The votes counted after an event. -/
def Event.votes (cfg : Config) (n : Node) (votes : List Bytes) : Event → List Bytes
  | .msg _ _ m =>
    match n.nextElectionInfo with
    | none => []
    | some info =>
      match info.ballot cfg n m with
      | some (id, _) => id :: votes
      | none => if info.Moves m then [] else votes
  | .scheduleElecting env => if 2 < env.refresh.table.length then votes else []
  | _ => votes

/-- A node with the votes it counted. -/
structure Ballots where
  node : Node
  votes : List Bytes

/-- One event. -/
def Ballots.step (cfg : Config) (s : Ballots) (e : Event) : Option Ballots :=
  (s.node.step cfg e).map fun n => ⟨n, e.votes cfg s.node s.votes⟩

/-- The confirmed tickets count the votes. -/
def Counted (n : Node) (votes : List Bytes) : Prop :=
  ∀ info, n.nextElectionInfo = some info →
    Counts info.confirmedTickets (votes.map encode)

theorem Event.counted {cfg : Config} {n : Node} {votes : List Bytes} {e : Event} {r : Reply}
    (h : e.outcome cfg n = .ok r) (counted : Counted n votes) :
    Counted r.node (e.votes cfg n votes) := by
  intro info' hi'
  have step := Event.electionStep h
  rw [hi'] at step
  generalize hn : some info' = next at step
  cases step with
  | kept e quiet many =>
    have hv : e.votes cfg n votes = votes := by
      cases e with
      | msg env p m => exact absurd rfl (quiet env p m)
      | scheduleElecting env => exact if_pos (many env rfl)
      | _ => rfl
    rw [hv]
    exact counted info' hn.symm
  | changed env p m info info'' next change =>
    obtain rfl := Option.some.inj hn
    cases change with
    | kept m vote stays =>
      simp only [Event.votes, next, vote, if_neg stays]
      exact counted _ next
    | voted m id time vote =>
      simp only [Event.votes, next, vote, List.map_cons]
      exact (counted info next).bump _
    | moved response vote flag state =>
      have moves : info.Moves (.voteElectionResponse response) := ⟨flag, state⟩
      simp only [Event.votes, next, vote, if_pos moves]
      exact counts_empty
  | absent => cases hn
  | first env few | activated env few =>
    obtain rfl := Option.some.inj hn
    simp only [Event.votes, if_neg few]
    exact counts_empty
  | dropped => cases hn
  | stopped info next =>
    obtain rfl := Option.some.inj hn
    exact counted info next

theorem counted_of_run {s t : Ballots} {events : List Event}
    (start : Counted s.node s.votes) (ran : Runs.run (Ballots.step cfg) s events = some t) :
    Counted t.node t.votes := by
  let I : Ballots → Prop := fun s => Counted s.node s.votes
  refine Runs.run_invariant (fun s e t (hs : I s) ht => ?_) start ran
  unfold Ballots.step at ht
  rw [Option.map_eq_some_iff] at ht
  obtain ⟨n, hn, rfl⟩ := ht
  obtain ⟨r, hr, rfl⟩ := Node.step_eq_some hn
  exact Event.counted hr hs

theorem handleMsg_voted {env : Env} {n : Node} {p : GoString} {m : Msg} {r : Reply}
    {info : ElectionInfo} {time : UInt64} (hi : n.nextElectionInfo = some info)
    (vote : info.ballot cfg n m = some (id, time)) (h : handleMsg cfg env n p m = .ok r) :
    ∃ info', r.node.nextElectionInfo = some info' ∧ info'.round = info.round ∧
      info'.confirmedTickets = bump info.confirmedTickets (encode id) := by
  obtain ⟨next, _, _, _, change, -, hn⟩ := handleMsg_effect h
  rw [hi] at change
  cases change with
  | some change =>
    rw [hn]
    cases change with
    | kept m none => rw [vote] at none; cases none
    | voted m id' time' vote' =>
      rw [vote] at vote'
      cases vote'
      exact ⟨_, rfl, rfl, rfl⟩
    | moved response none => rw [vote] at none; cases none

/-- The counter of an id is the number of votes for it in the round, whoever sent them.  The
reported node stays unless somebody one vote behind gets one, and then a conflict is reported. -/
theorem votes_counted (cfg : Config) (ident : NodeIdent) (delegators : List GoString)
    (infos : List NodeInfo) (events : List Event) (s : Ballots) (info : ElectionInfo)
    (ran : Runs.run (Ballots.step cfg) ⟨Node.init ident delegators infos, []⟩ events = some s)
    (hi : s.node.nextElectionInfo = some info) :
    (∀ id, info.confirmedTickets.read (encode id) = UInt32.ofNat (s.votes.count id)) ∧
      ∀ env p m r id time, info.ballot cfg s.node m = some (id, time) →
        handleMsg cfg env s.node p m = .ok r →
          ∃ info', r.node.nextElectionInfo = some info' ∧ info'.round = info.round ∧
            (∀ k, info'.confirmedTickets.read k =
              if k = encode id then info.confirmedTickets.read k + 1
              else info.confirmedTickets.read k) ∧
            (s.votes ≠ [] → s.votes.length + 1 < 2 ^ 32 → ∀ w, info.Reports w →
              if id = w ∨ s.votes.count id + 1 < s.votes.count w then info'.Reports w
              else info'.Conflicts) := by
  have counts : Counts info.confirmedTickets (s.votes.map encode) :=
    counted_of_run (fun info hi => by cases hi) ran info hi
  refine ⟨fun id => ?_, ?_⟩
  · rw [counts.read, List.count_map_of_injective _ _ encode_injective]
  · intro env p m r id time vote h
    obtain ⟨info', hi', round, tickets⟩ := handleMsg_voted hi vote h
    refine ⟨info', hi', round, fun k => ?_, fun voted small w reports => ?_⟩
    · rw [tickets]
      split_ifs with hk
      · rw [hk, read_bump]
      · rw [read_bump_ne _ hk]
    · have counts' : Counts info'.confirmedTickets ((id :: s.votes).map encode) := by
        rw [tickets]
        exact counts.bump _
      have leads : Leads s.votes w := (reports_iff counts voted (by omega) w).1 reports
      split_ifs with far
      · exact (reports_iff counts' (by simp) (by simpa using small) w).2 (leads.cons far)
      · rw [not_or] at far
        exact conflicts_of_no_leader counts' (by simp) (by simpa using small)
          (leads.tie far.1 far.2)

/-- A broadcast of node 1 comes twice. -/
def replayEvents : List Event :=
  [.scheduleElecting (.plain 100 [[7], [8], [9]] 5),
    .msg (.plain 101 [[7], [8], [9]] 5) [7] (.votedElectionBroadcast ⟨1, 1, 115, 0, [1]⟩),
    .msg (.plain 101 [[7], [8], [9]] 5) [8] (.votedElectionBroadcast ⟨1, 1, 115, 0, [2]⟩),
    .msg (.plain 101 [[7], [8], [9]] 5) [9] (.votedElectionBroadcast ⟨1, 1, 115, 0, [1]⟩)]

theorem votes_counted_replay :
    ∃ s info, Runs.run (Ballots.step (.plain false)) ⟨Node.init .sample [] [], []⟩ replayEvents =
        some s ∧ s.node.nextElectionInfo = some info ∧
      ∀ id, info.confirmedTickets.read (encode id) = UInt32.ofNat (s.votes.count id) :=
  ⟨_, _, rfl, rfl, (votes_counted (.plain false) .sample [] [] replayEvents _ _ rfl rfl).1⟩

/-- Peer `[8]` delivers its vote for `[2]` again, and the node reported before is reported no more.
-/
theorem replay_changes_winner :
    ∃ n n' info info', Runs.run (Node.step (.plain false)) (Node.init .sample [] []) replayEvents =
        some n ∧ n.nextElectionInfo = some info ∧ Event.msg (.plain 101 [[7], [8], [9]] 5) [8]
          (.votedElectionBroadcast ⟨1, 1, 115, 0, [2]⟩) ∈ replayEvents ∧
      n.step (.plain false) (.msg (.plain 101 [[7], [8], [9]] 5) [8]
        (.votedElectionBroadcast ⟨1, 1, 115, 0, [2]⟩)) = some n' ∧
      n'.nextElectionInfo = some info' ∧ info'.round = info.round ∧
      info'.confirmedTickets.read (encode [2]) = 2 ∧
      (info.getBestNodeInfo2 (.plain 101 [] 0)).nodeId = [1] ∧
      (info'.getBestNodeInfo2 (.plain 101 [] 0)).nodeId = [] := by
  refine ⟨_, _, _, _, rfl, rfl, by simp [replayEvents], rfl, rfl, ?_⟩
  decide

end JuChain.Protocol
