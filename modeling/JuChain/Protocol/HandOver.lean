import JuChain.Protocol.CrashSafety
import JuChain.Protocol.Slot

/-!
# The hand-over between big periods

The switch to the next big period reads the active time of `GigPeriodInstance`, which only the
switch itself sets, so the hand-over is correct in exactly the runs that never reach it
(`handsOver_iff`).
-/

namespace JuChain.Protocol

/-- The variables and the tables that were activated so far, oldest first. -/
structure Period where
  node : Node
  activated : List GigPeriodTable

/-- The table that a call activates. -/
def Reply.activation (r : Reply) : List GigPeriodTable :=
  if r.effects.any fun e => match e with
    | .switched _ => true
    | _ => false
  then r.node.gigPeriodInstance.toList
  else []

/-- The voting contract answers with one node record per delegate, as `Refresh` does outside of test
mode. -/
abbrev ContractEnv (cfg : Config) : Type :=
  { env : Env // cfg.testMode = false → env.refresh.nodes.length = env.refresh.table.length }

/-- One call of `syncDelegatedNodeSafely`. -/
def Period.sync (cfg : Config) (s : Period) (env : ContractEnv cfg) : Option Period :=
  match syncDelegatedNodeSafely cfg env s.node with
  | .ok r => some ⟨r.node, s.activated ++ r.activation⟩
  | .error _ => none

/-- A node that has started. -/
def Period.init (ident : NodeIdent) (delegators : List GoString) (infos : List NodeInfo) : Period :=
  ⟨Node.init ident delegators infos, []⟩

/-- The history is the end of the list of activated tables, and the next table starts when the slots
of the active one are over. -/
structure Period.Good (s : Period) : Prop where
  history : s.node.gigPeriodHistory =
    s.activated.drop (s.activated.length - bigPeriodHistorySize.toNat)
  activeTime : ∀ current next, s.node.gigPeriodInstance = some current →
    s.node.nextGigPeriodInstance = some next →
      next.activeTime = current.activeTime + gigPeriodInterval.toUInt64
  disjoint : ∀ current next, s.node.gigPeriodInstance = some current →
    s.node.nextGigPeriodInstance = some next →
    current.delegatedNodes.length ≤ totalDelegatorNumber.toNat →
    next.delegatedNodes.length ≤ totalDelegatorNumber.toNat →
      ∀ i < current.delegatedNodes.length, ∀ j < next.delegatedNodes.length,
        ∀ now ∈ current.slot i, now ∉ next.slot j

/-- The calls return and hand over the tables in order. -/
def HandsOver (cfg : Config) (s : Period) (envs : List (ContractEnv cfg)) : Prop :=
  (Runs.run (Period.sync cfg) s envs).isSome ∧ Runs.Always (Period.sync cfg) Period.Good s envs

/-- The call gets to the switch. -/
def ReachesSwitch (cfg : Config) (env : Env) (n : Node) : Prop :=
  n.isDelegatedNode = true ∧ env.refresh.err = false ∧ env.refresh.table ≠ [] ∧ env.peers ≠ [] ∧
    ∃ t, n.nextGigPeriodInstance = some t ∧ improperGap cfg env t.activeTime = false

/-- No table was activated. -/
def Period.Idle (s : Period) : Prop :=
  s.node.gigPeriodInstance = none ∧ s.node.gigPeriodHistory = [] ∧ s.activated = []

theorem Period.Idle.good {s : Period} (h : s.Idle) : s.Good := by
  obtain ⟨hi, hh, ha⟩ := h
  refine ⟨by simp [hh, ha], fun current next hc => ?_, fun current next hc => ?_⟩
  · rw [hi] at hc
    cases hc
  · rw [hi] at hc
    cases hc

theorem pull_history {env : Env} {n : Node} (h : n.gigPeriodHistory = []) :
    (n.pull env).gigPeriodHistory = [] := by
  simp [Node.pull, h]

variable {cfg : Config}

theorem Period.Idle.sync {cfg : Config} {s t : Period} {env : ContractEnv cfg} (h : s.Idle)
    (step : s.sync cfg env = some t) : t.Idle := by
  obtain ⟨hi, hh, ha⟩ := h
  unfold Period.sync at step
  split at step
  · rename_i r hr
    obtain rfl := Option.some.inj step
    have idle : r.node.gigPeriodInstance = none ∧ r.node.gigPeriodHistory = [] := by
      have change := syncDelegatedNodeSafely_change hr
      generalize r.node = n' at change
      cases change with
      | idle => exact ⟨hi, hh⟩
      | pulled => exact ⟨hi, pull_history hh⟩
      | first | delayed => exact ⟨hi, @pull_history env _ hh⟩
      | switched t current next gap active => rw [hi] at active; cases active
    refine ⟨idle.1, idle.2, ?_⟩
    simp [ha, Reply.activation, idle.1]
  · cases step

/-! ## Calls that panic -/

theorem delegatorsKnown_pull (env : ContractEnv cfg) (test : cfg.testMode = false) (n : Node)
    (table : List GoString) : DelegatorsKnown env (n.pull env) table := by
  intro d _ _ i hi
  have hl : (n.pull env).delegatorNodeInfo.length = (n.pull env).delegatorsTable.length :=
    env.2 test
  rw [hl]
  exact (List.findIdx?_eq_some_iff_findIdx_eq.1 hi).1

theorem completes_switchBigPeriod (env : ContractEnv cfg) {n : Node}
    (idle : n.gigPeriodInstance = none) : Completes (switchBigPeriod cfg env (n.pull env)) ↔
      ¬ ∃ t, n.nextGigPeriodInstance = some t ∧ improperGap cfg env t.activeTime = false := by
  have hn : (n.pull env).nextGigPeriodInstance = n.nextGigPeriodInstance := rfl
  have hg : (n.pull env).gigPeriodInstance = none := idle
  rw [← hn]
  unfold switchBigPeriod
  split
  · rename_i ht
    rw [completes_installNext]
    refine iff_of_true (fun test => delegatorsKnown_pull env test n _) ?_
    simp [ht]
  · rename_i t ht
    simp only [hg, deref_none, ht, Option.some.injEq, exists_eq_left']
    split_ifs with gap
    · simp [gap]
    · simpa using gap

theorem completes_syncDelegatedNodeSafely (env : ContractEnv cfg) {n : Node}
    (idle : n.gigPeriodInstance = none) :
    Completes (syncDelegatedNodeSafely cfg env n) ↔ ¬ ReachesSwitch cfg env n := by
  unfold syncDelegatedNodeSafely ReachesSwitch
  simp only
  split_ifs with member err empty
  · simp_all
  · simp_all
  · have he : env.1.refresh.table = [] ∨ env.1.peers = [] := by
      simpa [Node.pull, Node.refresh] using empty
    rcases he with he | he <;> simp [he]
  · have he : env.1.refresh.table ≠ [] ∧ env.1.peers ≠ [] := by
      simpa [Node.pull, Node.refresh] using empty
    rw [completes_switchBigPeriod env idle]
    simp_all

theorem Period.Idle.sync_isSome_iff {s : Period} (h : s.Idle) (env : ContractEnv cfg) :
    (s.sync cfg env).isSome ↔ ¬ ReachesSwitch cfg env s.node := by
  rw [← completes_syncDelegatedNodeSafely env h.1]
  unfold Period.sync
  cases syncDelegatedNodeSafely cfg env s.node with
  | error c | ok r => simp

/-- The hand-over is correct in a run exactly when no call of the run gets to it. -/
theorem handsOver_iff (cfg : Config) (ident : NodeIdent) (delegators : List GoString)
    (infos : List NodeInfo) (envs : List (ContractEnv cfg)) :
    HandsOver cfg (.init ident delegators infos) envs ↔
      Runs.Throughout (Period.sync cfg) (fun s env => ¬ ReachesSwitch cfg env s.node)
        (.init ident delegators infos) envs := by
  have start : (Period.init ident delegators infos).Idle := ⟨rfl, rfl, rfl⟩
  have keeps : ∀ s env t, Period.Idle s → Period.sync cfg s env = some t → t.Idle :=
    fun s env t h step => h.sync step
  have always : Runs.Always (Period.sync cfg) Period.Good (.init ident delegators infos) envs :=
    Runs.always_of_invariant keeps (fun s h => h.good) start envs
  rw [← Runs.run_isSome_iff_throughout keeps (fun s env h => h.sync_isSome_iff env) start]
  exact ⟨fun h => h.1, fun h => ⟨h, always⟩⟩

/-- A delegate alone in the contract. -/
def ContractEnv.delegated (now : Int64) (delegate : NodeIdent) : ContractEnv (.plain false) :=
  ⟨{ Env.plain now [[7]] 0 with refresh := ⟨[Hex.encode delegate.bytes], [⟨[1]⟩], false⟩ },
    fun _ => rfl⟩

/-- The second call, one big period after the first, panics. -/
theorem second_big_period_panics : ¬ HandsOver (.plain false)
      (.init .sample [Hex.encode NodeIdent.sample.bytes] [⟨[1]⟩])
      [.delegated 1000 .sample, .delegated 1155 .sample] := by
  rintro ⟨h, -⟩
  revert h
  decide

end JuChain.Protocol
