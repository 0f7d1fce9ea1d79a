import JuChain.Protocol.Events

/-!
# Who confirms the table of the next big period

The delegate manager counts the answers that carry the round and a correct signature under the id
they claim to come from, without a look at membership or repetition.  `table_follows_reports` says
which answer decides.
-/

namespace JuChain.Protocol

open Tally UInt32 Hex

/-! ## Accepted answers -/

/-- The answer, counted in `t`, makes the node start the round again. -/
def GigPeriodTable.Restarts (env : Env) (t : GigPeriodTable) (response : SyncBigPeriodResponse) :
    Prop :=
  t.state ≠ stateConfirmed ∧
    ¬ (t.state = stateLooking ∧
      t.confirmedTickets.read (t.bestNodeId env) > ofNat t.delegatedNodes.length) ∧
    response.state = stateMismatchedRound

instance (env : Env) (t : GigPeriodTable) (response : SyncBigPeriodResponse) :
    Decidable (t.Restarts env response) :=
  inferInstanceAs (Decidable (_ ∧ _ ∧ _))

/-- A message that arrives. -/
structure Delivery where
  env : Env
  peer : GoString
  msg : Msg

/-- The variables and the answers accepted since the next table was made, last first. -/
structure Reports where
  node : Node
  reports : List SyncBigPeriodResponse

namespace Reports

/-- The reports counted after a message. -/
def after (cfg : Config) (s : Reports) (d : Delivery) : List SyncBigPeriodResponse :=
  match d.msg, s.node.nextGigPeriodInstance with
  | .syncBigPeriodResponse response, some t =>
    if t.Accepts cfg response then
      if (t.countResponse response).Restarts d.env response then [] else response :: s.reports
    else s.reports
  | _, _ => s.reports

/-- One message. -/
def step (cfg : Config) (s : Reports) (d : Delivery) : Option Reports :=
  match handleMsg cfg d.env s.node d.peer d.msg with
  | .ok r => some ⟨r.node, s.after cfg d⟩
  | .error _ => none

end Reports

/-- The last report of a node. -/
def lastReport (reports : List SyncBigPeriodResponse) (id : Bytes) : Option SyncBigPeriodResponse :=
  reports.find? fun response => response.nodeId == id

/-- The tickets of a node. -/
def tickets (reports : List SyncBigPeriodResponse) (id : Bytes) : UInt32 :=
  ofNat ((reports.map fun response => response.nodeId).count id)

/-- The table in a report. -/
def SyncBigPeriodResponse.reported (response : SyncBigPeriodResponse) : ReportedTable :=
  ⟨response.round, response.delegatedTable, response.delegatedTableSign, response.activeTime⟩

/-! ## The maps of a table -/

/-- The maps of a table hold the numbers of accepted answers and the last table of an id. -/
structure Recorded (t : GigPeriodTable) (reports : List SyncBigPeriodResponse) : Prop where
  counts : Counts t.confirmedTickets (reports.map fun response => encode response.nodeId)
  tables : ∀ id, t.confirmedBestNode.lookup (encode id) =
    (lastReport reports id).map SyncBigPeriodResponse.reported
  named : ∀ k ∈ t.confirmedBestNode, ∃ id, k = encode id

/-- While the table is looked for, nobody has passed the threshold. -/
def GigPeriodTable.Below (t : GigPeriodTable) : Prop :=
  t.state = stateLooking → ∀ k, t.confirmedTickets.read k ≤ ofNat t.delegatedNodes.length

theorem GigPeriodTable.below_of_best {t : GigPeriodTable} {env : Env}
    (h : t.state = stateLooking → ¬ ofNat t.delegatedNodes.length <
      t.confirmedTickets.read (t.bestNodeId env)) : t.Below := by
  intro looking k
  exact UInt32.le_trans ((t.bestNodeId_spec env).1 k) (UInt32.not_lt.1 (h looking))

theorem GigPeriodTable.below_adopt (t : GigPeriodTable) (nodes : List GoString) (sign : Hash)
    (activeTime : UInt64) : (t.adopt nodes sign activeTime).Below := by
  intro looking
  exact absurd looking (show stateConfirmed ≠ stateLooking by decide)

section Recorded

variable {t : GigPeriodTable} {reports : List SyncBigPeriodResponse}

theorem Recorded.read (h : Recorded t reports) (id : Bytes) :
    t.confirmedTickets.read (encode id) = tickets reports id := by
  have hm : (reports.map fun response => encode response.nodeId) =
      (reports.map fun response => response.nodeId).map encode := by simp
  rw [h.counts.read, hm, List.count_map_of_injective _ _ encode_injective]
  rfl

theorem recorded_looking (round : UInt64) (nodes : List GoString) (sign : Hash)
    (activeTime : UInt64) : Recorded (.looking round nodes sign activeTime) [] where
  counts := counts_empty
  tables := fun id => by simp [GigPeriodTable.looking, lastReport]
  named := fun k hk => by simp [GigPeriodTable.looking] at hk

theorem GigPeriodTable.below_looking (round : UInt64) (nodes : List GoString) (sign : Hash)
    (activeTime : UInt64) : (looking round nodes sign activeTime).Below := by
  intro _ k
  simp [looking, read_empty]

theorem Recorded.countResponse (h : Recorded t reports) (response : SyncBigPeriodResponse) :
    Recorded (t.countResponse response) (response :: reports) where
  counts := h.counts.bump _
  tables := by
    intro id
    unfold GigPeriodTable.countResponse lastReport
    by_cases hid : response.nodeId = id
    · rw [List.find?_cons_of_pos (by simpa using hid), hid]
      simp [SyncBigPeriodResponse.reported]
    · rw [List.find?_cons_of_neg (by simpa using hid), AList.lookup_insert_ne]
      · exact h.tables id
      · exact fun heq => hid (encode_injective heq).symm
  named := by
    intro k hk
    rcases (AList.mem_insert _).1 hk with rfl | hk
    · exact ⟨_, rfl⟩
    · exact h.named k hk

theorem Recorded.adopt (h : Recorded t reports) (nodes : List GoString) (sign : Hash)
    (activeTime : UInt64) : Recorded (t.adopt nodes sign activeTime) reports :=
  ⟨h.counts, h.tables, h.named⟩

end Recorded

/-! ## Steps and runs -/

/-- The table follows the reports. -/
def Reports.Backed (s : Reports) : Prop :=
  ∃ t, s.node.nextGigPeriodInstance = some t ∧ Recorded t s.reports ∧ t.Below

section Steps

variable {cfg : Config} {env : Env} {s : Reports} {t t' : GigPeriodTable}

variable {p : GoString}

theorem Reports.after_accepted {response : SyncBigPeriodResponse}
    (ht : s.node.nextGigPeriodInstance = some t)
    (accepts : t.Accepts cfg response) : s.after cfg ⟨env, p, .syncBigPeriodResponse response⟩ =
      if (t.countResponse response).Restarts env response then [] else response :: s.reports := by
  simp only [Reports.after, ht, if_pos accepts]

theorem Reports.after_kept {m : Msg} (ht : s.node.nextGigPeriodInstance = some t)
    (idle : ∀ response, m = .syncBigPeriodResponse response → ¬ t.Accepts cfg response) :
    s.after cfg ⟨env, p, m⟩ = s.reports := by
  cases m with
  | syncBigPeriodResponse response => simp only [Reports.after, ht, if_neg (idle response rfl)]
  | _ => rfl

theorem GigChange.backed {m : Msg} (change : GigChange cfg env t m t')
    (ht : s.node.nextGigPeriodInstance = some t) (recorded : Recorded t s.reports) (below : t.Below) :
    Recorded t' (s.after cfg ⟨env, p, m⟩) ∧ t'.Below := by
  cases change with
  | kept m idle =>
    rw [Reports.after_kept ht idle]
    exact ⟨recorded, below⟩
  | agreed request =>
    exact ⟨recorded.adopt _ _ _, t.below_adopt _ _ _⟩
  | followed response best accepts state =>
    rw [Reports.after_accepted ht accepts, if_neg fun restarts => restarts.1 state]
    exact ⟨(recorded.countResponse response).adopt _ _ _, GigPeriodTable.below_adopt _ _ _ _⟩
  | passed response accepts state tickets =>
    rw [Reports.after_accepted ht accepts, if_neg fun restarts => restarts.2.1 ⟨state, tickets⟩]
    exact ⟨(recorded.countResponse response).adopt _ _ _, GigPeriodTable.below_adopt _ _ _ _⟩
  | restarted response accepts state tickets flag =>
    rw [Reports.after_accepted ht accepts, if_pos ⟨state, fun h => tickets h.1 h.2, flag⟩]
    exact ⟨recorded_looking _ _ _ _, GigPeriodTable.below_looking _ _ _ _⟩
  | counted response accepts state tickets flag =>
    rw [Reports.after_accepted ht accepts, if_neg fun restarts => flag restarts.2.2]
    exact ⟨recorded.countResponse response, GigPeriodTable.below_of_best tickets⟩

theorem Reports.Backed.step {s s' : Reports} {d : Delivery} (h : s.Backed)
    (next : s.step cfg d = some s') : s'.Backed := by
  obtain ⟨t, ht, recorded, below⟩ := h
  unfold Reports.step at next
  split at next
  · rename_i r hr
    obtain rfl := Option.some.inj next
    obtain ⟨_, table, _, _, -, change, hn⟩ := handleMsg_effect hr
    rw [ht] at change
    cases change with
    | some change => exact ⟨_, by rw [hn], change.backed ht recorded below⟩
  · cases next

/-- While nobody is above the threshold, the answer that brings the best node above it is its own.
-/
theorem passed_by_sender (recorded : Recorded t s.reports) (below : t.Below)
    (state : t.state = stateLooking) (response : SyncBigPeriodResponse)
    (passes : ofNat t.delegatedNodes.length < (t.countResponse response).confirmedTickets.read
        ((t.countResponse response).bestNodeId env)) :
    ofNat t.delegatedNodes.length < tickets (response :: s.reports) response.nodeId ∧
      ∀ id, id ≠ response.nodeId →
        tickets (response :: s.reports) id ≤ ofNat t.delegatedNodes.length := by
  have counted := recorded.countResponse response
  have others : ∀ k, k ≠ encode response.nodeId →
      (t.countResponse response).confirmedTickets.read k ≤
        ofNat t.delegatedNodes.length := by
    intro k hk
    unfold GigPeriodTable.countResponse
    rw [read_bump_ne _ hk]
    exact below state k
  refine ⟨?_, fun id hid => ?_⟩
  · rw [← counted.read]
    by_cases hb : (t.countResponse response).bestNodeId env = encode response.nodeId
    · rwa [hb] at passes
    · exact absurd passes (UInt32.not_lt.2 (others _ hb))
  · rw [← counted.read]
    exact others _ fun heq => hid (encode_injective heq)

theorem followed_best (recorded : Recorded t s.reports) (response : SyncBigPeriodResponse)
    {best : ReportedTable} (reported : (t.countResponse response).confirmedBestNode.lookup
      ((t.countResponse response).bestNodeId env) = some best) :
    ∃ id last, lastReport (response :: s.reports) id = some last ∧ best = last.reported ∧
      ∀ other, tickets (response :: s.reports) other ≤ tickets (response :: s.reports) id := by
  have counted := recorded.countResponse response
  have mem : (t.countResponse response).bestNodeId env ∈
      (t.countResponse response).confirmedBestNode := by
    rw [← AList.lookup_isSome, reported]
    rfl
  obtain ⟨id, hid⟩ := counted.named _ mem
  have hlast := counted.tables id
  rw [← hid, reported] at hlast
  obtain ⟨last, hl, heq⟩ := Option.map_eq_some_iff.1 hlast.symm
  refine ⟨id, last, hl, heq.symm, fun other => ?_⟩
  rw [← counted.read, ← counted.read, ← hid]
  exact ((t.countResponse response).bestNodeId_spec env).1 _

end Steps

/-- The counters are the numbers of accepted answers of each id.  A table is confirmed by an answer
of the id whose answers have just passed the number of delegates; the delegates of a confirmed table
are replaced by the last ones of an id with the most answers. -/
theorem table_follows_reports (cfg : Config) (n : Node) (round : UInt64) (nodes : List GoString)
    (sign : Hash) (activeTime : UInt64) (deliveries : List Delivery) (s : Reports)
    (fresh : n.nextGigPeriodInstance = some (.looking round nodes sign activeTime))
    (ran : Runs.run (Reports.step cfg) ⟨n, []⟩ deliveries = some s) :
    ∃ t, s.node.nextGigPeriodInstance = some t ∧
      (∀ id, t.confirmedTickets.read (encode id) = tickets s.reports id) ∧ ∀ env p response r t',
        handleMsg cfg env s.node p (.syncBigPeriodResponse response) = .ok r →
        r.node.nextGigPeriodInstance = some t' →
          (t.state = stateLooking → t'.state = stateConfirmed →
            t'.delegatedNodes = response.delegatedTable ∧ ofNat t.delegatedNodes.length <
              tickets (response :: s.reports) response.nodeId ∧ ∀ id, id ≠ response.nodeId →
              tickets (response :: s.reports) id ≤ ofNat t.delegatedNodes.length) ∧
          (t.state = stateConfirmed → t'.delegatedNodes ≠ t.delegatedNodes →
            ∃ id last, lastReport (response :: s.reports) id = some last ∧
              t'.delegatedNodes = last.delegatedTable ∧
              ∀ other, tickets (response :: s.reports) other ≤
                tickets (response :: s.reports) id) := by
  have start : Reports.Backed ⟨n, []⟩ :=
    ⟨_, fresh, recorded_looking _ _ _ _, GigPeriodTable.below_looking _ _ _ _⟩
  obtain ⟨t, ht, recorded, below⟩ :=
    Runs.run_invariant (fun _ _ _ h next => Reports.Backed.step h next) start ran
  refine ⟨t, ht, recorded.read, ?_⟩
  intro env p response r t' hr ht'
  obtain ⟨_, next, _, _, -, change, hn⟩ := handleMsg_effect hr
  rw [hn] at ht'
  obtain rfl : next = some t' := ht'
  rw [ht] at change
  cases change with
  | some change =>
    generalize hm : Msg.syncBigPeriodResponse response = m at change
    cases change with
    | kept =>
      refine ⟨fun looking confirmed => ?_, fun _ changed => absurd rfl changed⟩
      rw [looking] at confirmed
      exact absurd confirmed (by decide)
    | agreed => cases hm
    | followed response' best accepts state reported =>
      cases hm
      refine ⟨fun looking => ?_, fun _ _ => ?_⟩
      · rw [looking] at state
        exact absurd state (by decide)
      · obtain ⟨id, last, hl, rfl, most⟩ := followed_best recorded response reported
        exact ⟨id, last, hl, rfl, most⟩
    | passed response' accepts state passes =>
      cases hm
      refine ⟨fun _ _ => ⟨rfl, passed_by_sender recorded below state response passes⟩, ?_⟩
      intro confirmed
      rw [state] at confirmed
      exact absurd confirmed (by decide)
    | restarted response' accepts state =>
      refine ⟨fun _ confirmed => ?_, fun confirmed => absurd confirmed state⟩
      exact absurd confirmed (show stateLooking ≠ stateConfirmed by decide)
    | counted response' accepts state =>
      refine ⟨fun looking confirmed => ?_, fun confirmed => absurd confirmed state⟩
      exact absurd (looking.symm.trans confirmed) (by decide)

/-- A node with one delegate. -/
def loneDelegate : Node :=
  { Node.init .sample [encode NodeIdent.sample.bytes] [] with
    nextGigPeriodInstance := some (.looking 1 [encode NodeIdent.sample.bytes] 0 1000) }

/-- A report of a node that is no delegate. -/
def strangeReport : SyncBigPeriodResponse := ⟨1, 1000, [[66]], 0, stateConfirmed, [9]⟩

/-- It comes twice. -/
def strangeDeliveries : List Delivery :=
  List.replicate 2 ⟨.plain 900 [[7]] 0, [7], .syncBigPeriodResponse strangeReport⟩

theorem table_follows_reports_lone :
    ∃ s, Runs.run (Reports.step (.plain false)) ⟨loneDelegate, []⟩ strangeDeliveries = some s ∧
      ∃ t, s.node.nextGigPeriodInstance = some t ∧
        ∀ id, t.confirmedTickets.read (encode id) = tickets s.reports id := by
  obtain ⟨t, ht, read, -⟩ := table_follows_reports (.plain false) loneDelegate 1
    [encode NodeIdent.sample.bytes] 0 1000 strangeDeliveries _ rfl rfl
  exact ⟨_, rfl, t, ht, read⟩

/-- Two answers of an id that is no delegate confirm its table. -/
theorem stranger_confirms :
    ∃ s t, Runs.run (Reports.step (.plain false)) ⟨loneDelegate, []⟩ strangeDeliveries = some s ∧
      s.node.nextGigPeriodInstance = some t ∧ t.state = stateConfirmed ∧ t.delegatedNodes = [[66]] ∧
      ∀ report ∈ s.reports, encode report.nodeId ∉ loneDelegate.delegatorsTable := by
  refine ⟨_, _, rfl, rfl, ?_⟩
  decide

end JuChain.Protocol
