import JuChain.Protocol.Events

/-!
# Signatures of the delegate tables

A table of delegates travels with its signature, the hash of the list, and the two are copied
separately.  The calls of the delegate manager hold its lock; each of them leaves only tables that
carry their own signature.
-/

namespace JuChain.Protocol

open Tally

/-- The table, and every table reported for it, carries the signature of its delegates. -/
structure GigPeriodTable.Signed (cfg : Config) (t : GigPeriodTable) : Prop where
  own : t.delegatedNodesSign = cfg.signCandidates t.delegatedNodes
  reported : ∀ id best, t.confirmedBestNode.lookup id = some best →
    best.delegatedNodesSign = cfg.signCandidates best.delegatedNodes

/-- All tables of the node are signed. -/
structure Node.Signed (cfg : Config) (n : Node) : Prop where
  active : ∀ t, n.gigPeriodInstance = some t → t.Signed cfg
  next : ∀ t, n.nextGigPeriodInstance = some t → t.Signed cfg
  history : ∀ t ∈ n.gigPeriodHistory, t.Signed cfg

namespace GigPeriodTable

variable {cfg : Config} {t : GigPeriodTable} {nodes : List GoString}

theorem Signed.looking (cfg : Config) (round : UInt64) {sign : Hash}
    (activeTime : UInt64) (signed : cfg.signCandidates nodes = sign) :
    (GigPeriodTable.looking round nodes sign activeTime).Signed cfg where
  own := signed.symm
  reported := fun id best h => by
    cases h

theorem Signed.adopt (h : t.Signed cfg) {sign : Hash}
    (signed : cfg.signCandidates nodes = sign) (activeTime : UInt64) :
    (t.adopt nodes sign activeTime).Signed cfg where
  own := signed.symm
  reported := h.reported

theorem Signed.countResponse (h : t.Signed cfg) {response : SyncBigPeriodResponse}
    (accepts : t.Accepts cfg response) : (t.countResponse response).Signed cfg where
  own := h.own
  reported := fun id best found => by
    rw [GigPeriodTable.countResponse] at found
    by_cases same : id = Hex.encode response.nodeId
    · subst same
      rw [AList.lookup_insert] at found
      obtain rfl := Option.some.inj found
      exact accepts.2.symm
    · rw [AList.lookup_insert_ne same] at found
      exact h.reported id best found

end GigPeriodTable

theorem GigChange.signed {cfg : Config} {env : Env} {t t' : GigPeriodTable} {m : Msg}
    (change : GigChange cfg env t m t') (h : t.Signed cfg) : t'.Signed cfg := by
  cases change with
  | kept m idle => exact h
  | agreed request signed round state => exact h.adopt signed _
  | followed response best accepts state reported =>
    have counted := h.countResponse accepts
    exact counted.adopt (counted.reported _ best reported).symm _
  | passed response accepts state tickets => exact (h.countResponse accepts).adopt accepts.2 _
  | restarted response accepts state tickets flag => exact .looking cfg _ _ accepts.2
  | counted response accepts state tickets flag => exact h.countResponse accepts

/-! ## Calls of the delegate manager -/

/-- A call under the lock of the delegate manager: one of its messages, or the timer of the big
period. -/
inductive DelegateEvent where
  | request (env : Env) (peer : GoString) (msg : SyncBigPeriodRequest)
  | response (env : Env) (peer : GoString) (msg : SyncBigPeriodResponse)
  | syncDelegatedNodeSafely (env : Env)

/-- The event. -/
def DelegateEvent.event : DelegateEvent → Event
  | .request env p msg => .msg env p (.syncBigPeriodRequest msg)
  | .response env p msg => .msg env p (.syncBigPeriodResponse msg)
  | .syncDelegatedNodeSafely env => .syncDelegatedNodeSafely env

/-- One such event. -/
def Node.delegateStep (cfg : Config) (n : Node) (e : DelegateEvent) : Option Node :=
  n.step cfg e.event

section Steps

variable {cfg : Config} {n : Node}

theorem Node.Signed.pull (h : n.Signed cfg) (env : Env) : (n.pull env).Signed cfg where
  active := h.active
  next := h.next
  history := fun t ht => by
    unfold Node.pull at ht
    split_ifs at ht with full
    · exact h.history t (List.mem_of_mem_drop ht)
    · exact h.history t ht

theorem handleMsg_signed {env : Env} {p : GoString} {m : Msg} {r : Reply}
    (hr : handleMsg cfg env n p m = .ok r) (h : n.Signed cfg) : r.node.Signed cfg := by
  obtain ⟨info, next, table, nodes, -, change, hn⟩ := handleMsg_effect hr
  rw [hn]
  refine ⟨h.active, fun t' ht' => ?_, h.history⟩
  obtain rfl : next = some t' := ht'
  cases ht : n.nextGigPeriodInstance with
  | none =>
    rw [ht] at change
    cases change
  | some t =>
    rw [ht] at change
    cases change with
    | some change => exact change.signed (h.next t ht)

theorem syncDelegatedNodeSafely_signed {env : Env} {r : Reply}
    (hr : syncDelegatedNodeSafely cfg env n = .ok r) (h : n.Signed cfg) : r.node.Signed cfg := by
  have change := syncDelegatedNodeSafely_change hr
  have pulled := h.pull env
  generalize r.node = n' at change
  cases change with
  | idle => exact h
  | pulled => exact pulled
  | first next =>
    refine ⟨pulled.active, fun t ht => ?_, pulled.history⟩
    obtain rfl := Option.some.inj ht
    exact .looking cfg _ _ rfl
  | delayed t next gap => exact ⟨pulled.active, pulled.next, pulled.history⟩
  | switched t current next gap active =>
    refine ⟨fun t' ht' => ?_, fun t' ht' => ?_, fun t' ht' => ?_⟩
    · obtain rfl := Option.some.inj ht'
      exact h.next _ next
    · obtain rfl := Option.some.inj ht'
      exact .looking cfg _ _ rfl
    · -- the table that becomes current takes the place of the last one of the history
      rcases List.mem_or_eq_of_mem_set ht' with old | rfl
      · exact pulled.history t' old
      · exact h.next _ next

theorem delegateStep_signed {e : DelegateEvent} {n' : Node} (h : n.Signed cfg)
    (step : n.delegateStep cfg e = some n') : n'.Signed cfg := by
  obtain ⟨r, hr, rfl⟩ := Node.step_eq_some step
  cases e with
  | request env p msg =>
    have hr : handleMsg cfg env n p (.syncBigPeriodRequest msg) = .ok r := hr
    exact handleMsg_signed hr h
  | response env p msg =>
    have hr : handleMsg cfg env n p (.syncBigPeriodResponse msg) = .ok r := hr
    exact handleMsg_signed hr h
  | syncDelegatedNodeSafely env => exact syncDelegatedNodeSafely_signed hr h

end Steps

theorem Node.signed_init (cfg : Config) (ident : NodeIdent) (delegators : List GoString)
    (infos : List NodeInfo) : (Node.init ident delegators infos).Signed cfg where
  active := nofun
  next := nofun
  history := nofun

/-- No call of the manager leaves an unsigned table. -/
theorem tables_signed (cfg : Config) :
    (∀ ident delegators infos, (Node.init ident delegators infos).Signed cfg) ∧
    ∀ (n : Node) (events : List DelegateEvent), n.Signed cfg →
      Runs.Always (Node.delegateStep cfg) (Node.Signed cfg) n events := by
  refine ⟨Node.signed_init cfg, fun n events h => ?_⟩
  have keeps : ∀ (s : Node) (e : DelegateEvent) (t : Node), s.Signed cfg →
      s.delegateStep cfg e = some t → t.Signed cfg := by
    intro s e t hs ht
    exact delegateStep_signed hs ht
  exact Runs.always_of_invariant keeps (fun s hs => hs) h events

/-- Tables are signed with the number of bytes of all ids. -/
def lengthConfig : Config := ⟨false, fun nodes => BitVec.ofNat 256 (nodes.map List.length).sum⟩

/-- A delegate makes its first table. -/
def firstTable : DelegateEvent :=
  .syncDelegatedNodeSafely { Env.plain 1000 [[7]] 1 with
    refresh := ⟨[Hex.encode NodeIdent.sample.bytes], [⟨[]⟩], false⟩ }

/-- Another delegate reports a table of its own. -/
def otherTable : DelegateEvent :=
  .response (.plain 1001 [[7]] 1) [7] ⟨1, 1155, [[66], [67, 68]], 3, stateMismatchedRound, [9]⟩

theorem tables_signed_example : ∃ n n',
    (Node.init .sample [Hex.encode NodeIdent.sample.bytes] [⟨[]⟩]).delegateStep lengthConfig
      firstTable = some n ∧
    n.delegateStep lengthConfig otherTable = some n' ∧
    n'.nextGigPeriodInstance.map GigPeriodTable.delegatedNodes = some [[66], [67, 68]] ∧
    n'.Signed lengthConfig := by
  obtain ⟨start, always⟩ := tables_signed lengthConfig
  have first :=
    (always _ [firstTable, otherTable] (start .sample [Hex.encode NodeIdent.sample.bytes] [⟨[]⟩])).2
      _ rfl
  have second := first.2 _ rfl
  exact ⟨_, _, rfl, rfl, rfl, second.head⟩

end JuChain.Protocol
