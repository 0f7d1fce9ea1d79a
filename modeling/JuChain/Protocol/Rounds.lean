import JuChain.Protocol.Events

/-!
# Rounds

The round of the next table never decreases (`gigRound_le_of_run`); in fact it is 1 in every
reachable state, because only the switch to the next big period goes on to the next round, and no
run gets there (`Node.gigRound_eq_one`).  The round of the next election also goes back: to 1 when
the round was dropped after a conflict or at the wrong time, and to the round of any answer that
says the rounds are mismatched (`RoundChange`).
-/

namespace JuChain.Protocol

open Option UInt64

variable {cfg : Config} {info infoA : ElectionInfo} {events : List Event}

/-! ## The delegate manager -/

variable {n n' : Node}

theorem Node.gigPeriodInstance_of_reachable (reach : n.Reachable cfg) : n.gigPeriodInstance = none :=
  reach.invariant (fun _ _ _ => rfl) fun _ _ _ idle h => Event.gigPeriodInstance_eq_none h idle

variable {t : GigPeriodTable}

theorem GigChange.round {env : Env} {t' : GigPeriodTable} {m : Msg}
    (change : GigChange cfg env t m t') : t'.round = t.round := by
  cases change with
  | restarted response accepts => exact accepts.1
  | _ => rfl

variable {e : Event}

theorem GigStep.round {next : Option GigPeriodTable} (step : GigStep cfg n e next)
    (idle : n.gigPeriodInstance = none) (ht : n.nextGigPeriodInstance = some t) :
    ∃ t', next = some t' ∧ t'.round = t.round := by
  cases step with
  | kept => exact ⟨t, ht, rfl⟩
  | changed env p m t₀ t' next change =>
    obtain rfl : t₀ = t := some.inj (next.symm.trans ht)
    exact ⟨t', rfl, change.round⟩
  | first env next =>
    rw [ht] at next
    cases next
  | switched env t₀ current next active =>
    rw [idle] at active
    cases active

theorem GigStep.round_one {next : Option GigPeriodTable} (step : GigStep cfg n e next)
    (idle : n.gigPeriodInstance = none) (one : ∀ t, n.nextGigPeriodInstance = some t → t.round = 1) :
    ∀ t, next = some t → t.round = 1 := by
  cases step with
  | kept => exact one
  | changed env p m t₀ t' next change =>
    rintro _ ⟨⟩
    exact change.round.trans (one t₀ next)
  | first =>
    rintro _ ⟨⟩
    rfl
  | switched env t₀ current next active =>
    rw [idle] at active
    cases active

theorem Node.gigRound_eq_one (reach : n.Reachable cfg) (ht : n.nextGigPeriodInstance = some t) :
    t.round = 1 := by
  let I : Node → Prop :=
    fun m => m.gigPeriodInstance = none ∧ ∀ t, m.nextGigPeriodInstance = some t → t.round = 1
  have start : ∀ ident delegators infos, I (Node.init ident delegators infos) :=
    fun _ _ _ => ⟨rfl, by simp [Node.init]⟩
  have keeps : ∀ m e r, I m → Event.outcome cfg m e = .ok r → I r.node := by
    rintro m e r ⟨idle, one⟩ hr
    exact ⟨Event.gigPeriodInstance_eq_none hr idle, (Event.gigStep hr).round_one idle one⟩
  exact (reach.invariant start keeps).2 t ht

theorem gigRound_le_of_run (reach : n.Reachable cfg)
    (ran : Runs.run (Node.step cfg) n events = some n') (ht : n.nextGigPeriodInstance = some t) :
    ∃ t', n'.nextGigPeriodInstance = some t' ∧ t.round ≤ t'.round := by
  let I : Node → Prop := fun m => m.gigPeriodInstance = none ∧
    ∃ t', m.nextGigPeriodInstance = some t' ∧ t.round ≤ t'.round
  have keeps : ∀ m e m', I m → Node.step cfg m e = some m' → I m' := by
    rintro m e m' ⟨idle, t', ht', hle⟩ hm
    obtain ⟨r, hr, rfl⟩ := Node.step_eq_some hm
    obtain ⟨t'', ht'', hround⟩ := (Event.gigStep hr).round idle ht'
    exact ⟨Event.gigPeriodInstance_eq_none hr idle, t'', ht'', hround ▸ hle⟩
  have start : I n := ⟨Node.gigPeriodInstance_of_reachable reach, t, ht, UInt64.le_refl _⟩
  exact (Runs.run_invariant keeps start ran).2

/-! ## The vote manager -/

/-- How a call can leave a round: unchanged, the next one after an activation, that of an answer
that says the rounds are mismatched, and 1 if there was none. -/
def RoundChange (n : Node) (e : Event) (round : UInt64) : Prop :=
  match n.nextElectionInfo with
  | none => ∃ env, e = .scheduleElecting env ∧ round = 1
  | some info =>
    round = info.round ∨
      (∃ env, e = .scheduleElecting env ∧ round = info.round + 1) ∨
      ∃ env p response, e = .msg env p (.voteElectionResponse response) ∧
        response.state = voteStateMismatchedRound ∧ info.enodestate = voteStateLooking ∧
        round = response.round

theorem ElectionStep.round_cases {info info' : ElectionInfo} (step : ElectionStep cfg n e (some info'))
    (hi : n.nextElectionInfo = some info) : RoundChange n e info'.round := by
  unfold RoundChange
  rw [hi]
  generalize hn : some info' = next at step
  cases step with
  | kept =>
    obtain rfl : info' = info := some.inj (hn.trans hi)
    exact Or.inl rfl
  | changed env p m i i' next change =>
    obtain rfl : i = info := some.inj (next.symm.trans hi)
    obtain rfl := some.inj hn
    cases change with
    | kept | voted => exact Or.inl rfl
    | moved response vote flag state =>
      exact Or.inr (Or.inr ⟨env, p, response, rfl, flag, state, rfl⟩)
  | absent => cases hn
  | first env few next =>
    rw [hi] at next
    cases next
  | activated env few i next =>
    obtain rfl : i = info := some.inj (next.symm.trans hi)
    obtain rfl := some.inj hn
    exact Or.inr (Or.inl ⟨env, rfl, rfl⟩)
  | dropped => cases hn
  | stopped i next =>
    obtain rfl : i = info := some.inj (next.symm.trans hi)
    obtain rfl := some.inj hn
    exact Or.inl rfl

theorem ElectionStep.round_one (step : ElectionStep cfg n e (some info))
    (hi : n.nextElectionInfo = none) : RoundChange n e info.round := by
  unfold RoundChange
  rw [hi]
  generalize hn : some info = next at step
  cases step with
  | first env few next =>
    obtain rfl := some.inj hn
    exact ⟨env, rfl, rfl⟩
  | kept => rw [hi] at hn; cases hn
  | changed env p m i i' next => rw [hi] at next; cases next
  | absent => cases hn
  | activated env few i next => rw [hi] at next; cases next
  | dropped => cases hn
  | stopped i next => rw [hi] at next; cases next

theorem ElectionStep.roundChange (step : ElectionStep cfg n e (some info)) :
    RoundChange n e info.round := by
  cases hi : n.nextElectionInfo with
  | none => exact step.round_one hi
  | some i => exact step.round_cases hi

/-- The call does not drop the round, wrap its number or move the node back. -/
def GoesOn (cfg : Config) (n : Node) (e : Event) : Prop :=
  (∀ n', n.step cfg e = some n' → n'.nextElectionInfo ≠ none) ∧
    ∀ info, n.nextElectionInfo = some info →
      (∀ env, e = .scheduleElecting env → info.round < info.round + 1) ∧
      ∀ env p response, e = .msg env p (.voteElectionResponse response) →
        response.state = voteStateMismatchedRound → info.enodestate = voteStateLooking →
          info.round ≤ response.round

theorem GoesOn.round_le (h : GoesOn cfg n e) (step : n.step cfg e = some n')
    (hi : n.nextElectionInfo = some info) :
    ∃ info', n'.nextElectionInfo = some info' ∧ info.round ≤ info'.round := by
  cases hn : n'.nextElectionInfo with
  | none => exact absurd hn (h.1 n' step)
  | some info' =>
    refine ⟨info', rfl, ?_⟩
    obtain ⟨r, hr, rfl⟩ := Node.step_eq_some step
    have change := Event.electionStep hr
    rw [hn] at change
    obtain ⟨activation, answer⟩ := h.2 info hi
    have round := change.roundChange
    unfold RoundChange at round
    rw [hi] at round
    rcases round with same | ⟨env, rfl, next⟩ | ⟨env, p, response, rfl, flag, state, moved⟩
    · exact same ▸ UInt64.le_refl _
    · exact next ▸ UInt64.le_of_lt (activation env rfl)
    · exact moved ▸ answer env p response rfl flag state

theorem electionRound_le_of_run
    (hi : n.nextElectionInfo = some info)
    (forward : Runs.Throughout (Node.step cfg) (GoesOn cfg) n events)
    (ran : Runs.run (Node.step cfg) n events = some n') :
    ∃ info', n'.nextElectionInfo = some info' ∧ info.round ≤ info'.round := by
  let I : Node → Prop := fun m => ∃ i, m.nextElectionInfo = some i ∧ info.round ≤ i.round
  have keeps : ∀ m e m', I m → GoesOn cfg m e → Node.step cfg m e = some m' → I m' := by
    rintro m e m' ⟨i, him, hle⟩ goesOn hm
    obtain ⟨i', hi', hle'⟩ := goesOn.round_le hm him
    exact ⟨i', hi', UInt64.le_trans hle hle'⟩
  have start : I n := ⟨info, hi, UInt64.le_refl _⟩
  exact Runs.run_invariant_of_throughout keeps start forward ran

/-! ## Catching up -/

/-- The request that a node sends. -/
def voteRequest (n : Node) (info : ElectionInfo) : Msg :=
  .voteElectionRequest ⟨info.round, info.electionTickets, info.activeTime, n.currNodeIdHash⟩

/-- The answer of a node that is ahead. -/
def aheadResponse (env : Env) (info : ElectionInfo) : VoteElectionResponse :=
  ⟨info.round, (info.getBestNodeInfo env).tickets, (info.getBestNodeInfo env).activeTime,
    voteStateMismatchedRound, (info.getBestNodeInfo env).nodeId⟩

theorem handleMsg_behind (env : Env) (p : GoString) {a b : Node} {infoB : ElectionInfo}
    (test : cfg.testMode = false) (hb : b.nextElectionInfo = some infoB)
    (behind : infoA.round < infoB.round) : handleMsg cfg env b p (voteRequest a infoA) =
      done b [.send p (.voteElectionResponse (aheadResponse env infoB))] := by
  have hne : infoA.round ≠ infoB.round := UInt64.ne_of_lt behind
  simp only [voteRequest, handleMsg, handleVoteRequest, hb, if_neg hne, if_pos behind, test,
    Bool.false_eq_true, if_false]
  rfl

theorem handleMsg_mismatched (cfg : Config) (env : Env) (p : GoString) {a : Node}
    {response : VoteElectionResponse}
    (ha : a.nextElectionInfo = some infoA) (looking : infoA.enodestate = voteStateLooking)
    (flag : response.state = voteStateMismatchedRound) :
    ∃ r, handleMsg cfg env a p (.voteElectionResponse response) = .ok r ∧
      r.node.nextElectionInfo = some (.looking a response.round 0 response.activeTime) := by
  have hs : ¬ (response.state = voteStateSelected ∧ infoA.round = response.round) := by
    rw [flag]
    exact fun h => absurd h.1 (by decide)
  simp only [handleMsg, handleVoteResponse, ha]
  rw [if_neg hs, if_pos ⟨flag, looking⟩]
  exact ⟨_, rfl, rfl⟩

/-- The rounds of the next table never decrease, as they are all 1; those of the next election only
where a call drops the round or moves the node back. -/
theorem rounds_advance (cfg : Config) :
    (∀ n n' events, n.Reachable cfg → Runs.run (Node.step cfg) n events = some n' →
      ∀ t, n.nextGigPeriodInstance = some t →
        ∃ t', n'.nextGigPeriodInstance = some t' ∧ t.round ≤ t'.round) ∧
    (∀ n n' e info, n.step cfg e = some n' → n'.nextElectionInfo = some info →
      RoundChange n e info.round) ∧ (∀ n n' events info, n.nextElectionInfo = some info →
      Runs.Throughout (Node.step cfg) (GoesOn cfg) n events →
      Runs.run (Node.step cfg) n events = some n' →
        ∃ info', n'.nextElectionInfo = some info' ∧ info.round ≤ info'.round) ∧
    (∀ envB p a b infoA infoB, cfg.testMode = false → a.nextElectionInfo = some infoA →
      b.nextElectionInfo = some infoB → infoA.round < infoB.round →
        ∃ response, handleMsg cfg envB b p (voteRequest a infoA) =
            done b [.send p (.voteElectionResponse response)] ∧
          ∀ envA q a' infoA', a'.nextElectionInfo = some infoA' →
            infoA'.enodestate = voteStateLooking →
              ∃ r info, handleMsg cfg envA a' q (.voteElectionResponse response) = .ok r ∧
                r.node.nextElectionInfo = some info ∧ info.round = infoB.round) := by
  refine ⟨fun n n' events reach ran t ht => gigRound_le_of_run reach ran ht, ?_,
    fun n n' events info hi forward ran => electionRound_le_of_run hi forward ran, ?_⟩
  · intro n n' e info hn hi
    obtain ⟨r, hr, rfl⟩ := Node.step_eq_some hn
    have step := Event.electionStep hr
    rw [hi] at step
    exact step.roundChange
  · intro envB p a b infoA infoB test _ hb behind
    refine ⟨aheadResponse envB infoB, handleMsg_behind envB p test hb behind, ?_⟩
    intro envA q a' infoA' ha' looking
    obtain ⟨r, hr, hn⟩ := handleMsg_mismatched cfg envA q ha' looking
      (show (aheadResponse envB infoB).state = voteStateMismatchedRound from rfl)
    exact ⟨r, _, hr, hn, rfl⟩

theorem rounds_advance_sample :
    ∃ n r info, Node.step (.plain false) (.fresh .sample) (.scheduleElecting (.plain 100 [[7]] 5)) =
        some n ∧ handleMsg (.plain false) (.plain 101 [[7]] 5) n [7]
        (.voteElectionResponse ⟨4, 9, 115, voteStateMismatchedRound, [1]⟩) = .ok r ∧
      r.node.nextElectionInfo = some info ∧ RoundChange n (.msg (.plain 101 [[7]] 5) [7]
        (.voteElectionResponse ⟨4, 9, 115, voteStateMismatchedRound, [1]⟩)) info.round :=
  ⟨_, _, _, rfl, rfl, rfl, (rounds_advance (.plain false)).2.1 _ _ _ _ rfl rfl⟩

/-- Two seconds after it caught up with round 5 a node is back in round 1. -/
theorem electionRound_decreases :
    ¬ ∀ (cfg : Config) (n n' : Node) (events : List Event) (info info' : ElectionInfo),
      n.Reachable cfg → Runs.run (Node.step cfg) n events = some n' →
      n.nextElectionInfo = some info → n'.nextElectionInfo = some info' →
        info.round ≤ info'.round := by
  intro h
  have bad := h (.plain false) _ _
    [.scheduleElecting (.plain 102 [[7]] 5), .scheduleElecting (.plain 102 [[7]] 5)] _ _
    ⟨.sample, [], [], [.scheduleElecting (.plain 100 [[7]] 5),
      .msg (.plain 101 [[7]] 5) [7]
        (.voteElectionResponse ⟨5, 9, 115, voteStateMismatchedRound, [1]⟩)], rfl⟩ rfl rfl rfl
  revert bad
  decide

end JuChain.Protocol
