import JuChain.Protocol.Ballot
import Mathlib.Data.List.FinRange
import Mathlib.Logic.Function.Basic

/-!
# The election as a system

The network delivers each message in flight once, in any order; timers and goroutines run when they
are due or later, in any order.  Nodes which have counted the same votes activate the same node
(`election_agreement`), but nothing makes two nodes count the same votes.
-/

namespace JuChain.Protocol

open Tally List Function Option Hex

/-! ## The system -/

/-- A message in flight, with the id its receiver knows the sender by. -/
structure Packet (k : ℕ) where
  target : Fin k
  peer : GoString
  msg : Msg

/-- A round that a node activated, with the votes it had counted. -/
structure Activation (k : ℕ) where
  node : Fin k
  info : ElectionInfo
  votes : List Bytes

/-- Nodes, messages on the way and pending calls. -/
structure System (k : ℕ) where
  node : Fin k → Node
  votes : Fin k → List Bytes
  net : List (Packet k)
  pending : List (Fin k × Callback)
  t1 : Fin k → Bool
  activations : List (Activation k)

namespace System

variable {k : ℕ}

/-- A message to the nodes with an id. -/
def packets (s : System k) (i : Fin k) (q : GoString) (m : Msg) : List (Packet k) :=
  ((List.finRange k).filter fun j => (s.node j).currNodeId == q).map
    fun j => ⟨j, (s.node i).currNodeId, m⟩

/-- The effect of a handler of node `i` on the network and the timers. -/
def effect (i : Fin k) (s : System k) : Effect → System k
  | .send q m => { s with net := s.net ++ s.packets i q m }
  | .go call => { s with pending := s.pending ++ [(i, call)] }
  | .afterFunc _ call => { s with pending := s.pending ++ [(i, call)] }
  | .resetT1 _ => { s with t1 := Function.update s.t1 i true }
  | .forgetT1 =>
    -- a timer that is forgotten still fires
    { s with
      pending := s.pending ++ (if s.t1 i then [(i, .scheduleElecting)] else [])
      t1 := Function.update s.t1 i false }
  | .resetSyncT1 _ => { s with pending := s.pending ++ [(i, .syncDelegatedNodeSafely)] }
  | .addPeer _ | .confirmed _ _ | .electing _ | .switched _ => s

/-- The peers are the other nodes. -/
def env (s : System k) (i : Fin k) (env : Env) : Env :=
  { env with
    peers := ((List.finRange k).filter fun j => j ≠ i).map fun j => (s.node j).currNodeId }

end System

/-- The election that an event activates. -/
def Event.activation (cfg : Config) (n : Node) : Event → Option ElectionInfo
  | .scheduleElecting env =>
    if (Protocol.scheduleElecting cfg env n).2.any fun e => match e with
      | .confirmed _ _ => true
      | _ => false
    then (Protocol.scheduleElecting cfg env n).1.electionInfo0
    else none
  | _ => none

/-- The event of a pending call. -/
def Callback.event (env : Env) : Callback → Event
  | .scheduleElecting => .scheduleElecting env
  | .checkBestNodeConflict => .checkBestNodeConflict env
  | .electNodeSafely => .electNodeSafely env
  | .syncDelegatedNodeSafely => .syncDelegatedNodeSafely env

namespace System

variable {k : ℕ}

/-- Node `i` makes a call.  A panic is as good as taking no further steps. -/
def exec (cfg : Config) (s : System k) (i : Fin k) (e : Event) : System k :=
  match e.outcome cfg (s.node i) with
  | .error _ => s
  | .ok r =>
    r.effects.foldl (effect i)
      { s with
        node := Function.update s.node i r.node
        votes := Function.update s.votes i (e.votes cfg (s.node i) (s.votes i))
        activations := s.activations ++
          ((e.activation cfg (s.node i)).map fun info => ⟨i, info, s.votes i⟩).toList }

/-- What happens next: a message arrives, a goroutine or timer runs, or `t1` fires. -/
inductive Action (k : ℕ) where
  | deliver (index : ℕ) (env : Env)
  | call (index : ℕ) (env : Env)
  | t1 (node : Fin k) (env : Env)

/-- One action of the system. -/
def step (cfg : Config) (s : System k) : Action k → Option (System k)
  | .deliver index env =>
    s.net[index]?.map fun p =>
      exec cfg { s with net := s.net.eraseIdx index } p.target
        (.msg (s.env p.target env) p.peer p.msg)
  | .call index env =>
    s.pending[index]?.map fun c =>
      exec cfg { s with pending := s.pending.eraseIdx index } c.1 (c.2.event (s.env c.1 env))
  | .t1 i env =>
    if s.t1 i then
      some (exec cfg { s with t1 := Function.update s.t1 i false } i
        (.scheduleElecting (s.env i env)))
    else none

/-- Nothing has happened. -/
def idle (base : Fin k → Node) : System k where
  node := base
  votes := fun _ => []
  net := []
  pending := []
  t1 := fun _ => false
  activations := []

/-- All nodes have started the round with their tickets, and have sent their requests. -/
def start (cfg : Config) (base : Fin k → Node) (envs : Fin k → Env) (round : UInt64) : System k :=
  let first (i : Fin k) := startRound cfg ((idle base).env i (envs i)) (base i) round
  (List.finRange k).foldl (fun s i => (first i).2.foldl (effect i) s) (idle fun i => (first i).1)

/-! ## The steps -/

theorem effects_eq (i : Fin k) (s : System k) (effects : List Effect) :
    (effects.foldl (effect i) s).node = s.node ∧ (effects.foldl (effect i) s).votes = s.votes ∧
      (effects.foldl (effect i) s).activations = s.activations := by
  induction effects generalizing s with
  | nil => exact ⟨rfl, rfl, rfl⟩
  | cons e effects ih =>
    have he : (effect i s e).node = s.node ∧ (effect i s e).votes = s.votes ∧
        (effect i s e).activations = s.activations := by
      cases e <;> exact ⟨rfl, rfl, rfl⟩
    obtain ⟨h₁, h₂, h₃⟩ := ih (effect i s e)
    rw [foldl_cons, h₁, h₂, h₃]
    exact he

end System

/-- If the node had counted votes, it activated the one id with the most. -/
def Activation.Elected {k : ℕ} (a : Activation k) : Prop :=
  a.votes ≠ [] → Counts a.info.confirmedTickets (a.votes.map encode) ∧
    ∃ id ∈ a.votes, a.info.electionNodeId = encode id ∧
      StrictBest a.info.confirmedTickets (encode id)

theorem startRound_not_confirmed (cfg : Config) (env : Env) (n : Node) (round : UInt64) :
    ((startRound cfg env n round).2.any fun e => match e with
      | .confirmed _ _ => true
      | _ => false) = false := by
  unfold startRound electNode
  simp only [any_append, any_cons, any_nil]
  split_ifs <;> simp

theorem Event.activation_elected {k : ℕ} {cfg : Config} {n : Node} {votes : List Bytes} {e : Event}
    {info : ElectionInfo} (counted : Counted n votes) (h : e.activation cfg n = some info)
    (i : Fin k) : Activation.Elected ⟨i, info, votes⟩ := by
  cases e with
  | scheduleElecting env =>
    intro voted
    have change := scheduleElecting_change cfg env n
    simp only [Event.activation] at h
    generalize Protocol.scheduleElecting cfg env n = out at change h
    cases change with
    | enough => simp at h
    | first => simp [startRound_not_confirmed] at h
    | dropped => simp at h
    | activated few old best next isBest tickets gap =>
      have counts := counted old next
      have strict := strictBest_of_reports counts voted ⟨isBest ▸ tickets, congrArg _ isBest⟩
      obtain rfl := some.inj h
      obtain ⟨id, hid, heq⟩ := exists_of_strictBest counts strict
      exact ⟨counts, best.nodeId, encode_injective heq ▸ hid, rfl, strict⟩
  | _ => cases h

/-- Ids never change, the counters of every node are its votes, and every activation was for the
best node. -/
structure System.Good {k : ℕ} (base : Fin k → Node) (s : System k) : Prop where
  ident : ∀ i, (s.node i).ident = (base i).ident
  counted : ∀ i, Counted (s.node i) (s.votes i)
  elected : ∀ a ∈ s.activations, a.Elected

namespace System

variable {k : ℕ} {base : Fin k → Node} {s t : System k} {cfg : Config}

theorem Good.congr (h : s.Good base) (node : t.node = s.node) (votes : t.votes = s.votes)
    (activations : t.activations = s.activations) : t.Good base := by
  refine ⟨?_, ?_, ?_⟩
  · rw [node]
    exact h.ident
  · rw [node, votes]
    exact h.counted
  · rw [activations]
    exact h.elected

theorem Good.exec (h : s.Good base) (i : Fin k) (e : Event) : (s.exec cfg i e).Good base := by
  unfold System.exec
  split
  · exact h
  · rename_i r hr
    obtain ⟨h₁, h₂, h₃⟩ := effects_eq i { s with
      node := update s.node i r.node
      votes := update s.votes i (e.votes cfg (s.node i) (s.votes i))
      activations := s.activations ++
        ((e.activation cfg (s.node i)).map fun info => ⟨i, info, s.votes i⟩).toList } r.effects
    refine ⟨fun j => ?_, fun j => ?_, fun a ha => ?_⟩
    · rw [h₁]
      by_cases hj : j = i
      · subst hj
        simp [Event.ident hr, h.ident]
      · simp [update_of_ne hj, h.ident]
    · rw [h₁, h₂]
      by_cases hj : j = i
      · subst hj
        simpa using Event.counted hr (h.counted j)
      · simpa [update_of_ne hj] using h.counted j
    · rw [h₃] at ha
      rcases mem_append.1 ha with ha | ha
      · exact h.elected a ha
      · obtain ⟨info, hinfo, rfl⟩ := map_eq_some_iff.1 (mem_toList.1 ha)
        exact Event.activation_elected (h.counted i) hinfo i

theorem Good.step {action : Action k} (h : s.Good base) (next : s.step cfg action = some t) :
    t.Good base := by
  cases action with
  | deliver index env =>
    obtain ⟨p, -, rfl⟩ := map_eq_some_iff.1 next
    refine Good.exec ?_ _ _
    exact h.congr rfl rfl rfl
  | call index env =>
    obtain ⟨c, -, rfl⟩ := map_eq_some_iff.1 next
    refine Good.exec ?_ _ _
    exact h.congr rfl rfl rfl
  | t1 i env =>
    simp only [System.step] at next
    split_ifs at next
    obtain rfl := some.inj next
    refine Good.exec ?_ _ _
    exact h.congr rfl rfl rfl

theorem good_start (cfg : Config) (base : Fin k → Node) (envs : Fin k → Env) (round : UInt64) :
    (start cfg base envs round).Good base := by
  let first (i : Fin k) := startRound cfg ((idle base).env i (envs i)) (base i) round
  have begun : (idle fun i => (first i).1).Good base := by
    refine ⟨fun i => rfl, fun i info hi => ?_, fun a ha => by cases ha⟩
    obtain rfl := some.inj hi
    exact counts_empty
  have sent : ∀ (is : List (Fin k)) (s : System k), s.Good base →
      (is.foldl (fun s i => (first i).2.foldl (effect i) s) s).Good base := by
    intro is
    induction is with
    | nil => exact fun s h => h
    | cons i is ih =>
      intro s h
      obtain ⟨h₁, h₂, h₃⟩ := effects_eq i s (first i).2
      exact ih _ (h.congr h₁ h₂ h₃)
  exact sent _ _ begun

theorem good_of_run {base : Fin k → Node} {envs : Fin k → Env} {round : UInt64}
    {actions : List (Action k)}
    (ran : Runs.run (System.step cfg) (start cfg base envs round) actions = some s) : s.Good base :=
  Runs.run_invariant (fun _ _ _ h next => Good.step h next) (good_start cfg base envs round) ran

end System

theorem NodeIdent.eq_of_encode {a b : NodeIdent} (h : encode a.bytes = encode b.bytes) : a = b := by
  have hb := encode_injective h
  cases a
  congr

/-- A node activates the id with strictly the most of the votes it has counted, and nodes that have
counted the same votes activate the same one. -/
theorem election_agreement {k : ℕ} (cfg : Config) (base : Fin k → Node) (envs : Fin k → Env)
    (round : UInt64) (actions : List (System.Action k)) (s : System k)
    (distinct : Function.Injective fun i => (base i).ident)
    (ran : Runs.run (System.step cfg) (.start cfg base envs round) actions = some s) :
    (∀ a ∈ s.activations, a.votes ≠ [] →
      ∃ id ∈ a.votes, a.info.electionNodeId = encode id ∧ ∀ other, other ≠ id →
        UInt32.ofNat (a.votes.count other) < UInt32.ofNat (a.votes.count id)) ∧
    ∀ a ∈ s.activations, ∀ b ∈ s.activations, a.votes.Perm b.votes → a.votes ≠ [] →
      a.info.electionNodeId = b.info.electionNodeId ∧
        (a.node ≠ b.node → ¬ (a.info.electionNodeId = (s.node a.node).currNodeId ∧
          b.info.electionNodeId = (s.node b.node).currNodeId)) := by
  have good := System.good_of_run ran
  refine ⟨fun a ha voted => ?_, fun a ha b hb same voted => ?_⟩
  · obtain ⟨counts, id, hid, elected, strict⟩ := good.elected a ha voted
    refine ⟨id, hid, elected, fun other hne => ?_⟩
    have hlt := strict.2 (encode other) (encode_injective.ne hne)
    rwa [counts.read, counts.read, count_map_of_injective _ _ encode_injective,
      count_map_of_injective _ _ encode_injective] at hlt
  · have voted' : b.votes ≠ [] := fun h0 => voted (perm_nil.1 (h0 ▸ same))
    obtain ⟨countsA, idA, -, electedA, strictA⟩ := good.elected a ha voted
    obtain ⟨countsB, idB, -, electedB, strictB⟩ := good.elected b hb voted'
    have winner := countsA.strictBest countsB (same.map encode) strictA
    have agree : a.info.electionNodeId = b.info.electionNodeId := by
      rw [electedA, electedB]
      exact winner.unique strictB
    refine ⟨agree, fun hne both => hne (distinct ?_)⟩
    have ids : encode (s.node a.node).ident.bytes = encode (s.node b.node).ident.bytes :=
      both.1.symm.trans (agree.trans both.2)
    rw [good.ident, good.ident] at ids
    exact NodeIdent.eq_of_encode ids

/-- Three nodes. -/
def threeNodes (i : Fin 3) : Node := .fresh ⟨[i.val.toUInt8, 0, 0, 0, 0, 0, 0, 0], rfl⟩

/-- Their tickets differ. -/
def threeTickets (i : Fin 3) : Env := .plain 100 [] (i.val.toUInt32 + 1)

/-- The requests of node 2 reach the others, and then their timers fire. -/
def lastRequests : List (System.Action 3) :=
  [.deliver 4 (.plain 101 [] 0), .deliver 4 (.plain 101 [] 0), .t1 0 (.plain 115 [] 0),
    .t1 1 (.plain 115 [] 0)]

theorem election_agreement_threeNodes :
    ∃ s, Runs.run (System.step (.plain false)) (.start (.plain false) threeNodes threeTickets 1)
        lastRequests = some s ∧ ∃ a ∈ s.activations, ∃ b ∈ s.activations, a.node ≠ b.node ∧
      a.votes ≠ [] ∧ a.info.electionNodeId = b.info.electionNodeId := by
  obtain ⟨s, ran, a, ha, b, hb, apart, same, voted⟩ : ∃ s, Runs.run (System.step (.plain false))
        (.start (.plain false) threeNodes threeTickets 1) lastRequests = some s ∧
      ∃ a ∈ s.activations, ∃ b ∈ s.activations, a.node ≠ b.node ∧ a.votes.Perm b.votes ∧
        a.votes ≠ [] := by
    decide
  have distinct : ∀ i j, (threeNodes i).ident = (threeNodes j).ident → i = j := by decide
  exact ⟨s, ran, a, ha, b, hb, apart, voted,
    ((election_agreement (.plain false) threeNodes threeTickets 1
    lastRequests s distinct ran).2 a ha b hb same voted).1⟩

/-- Node 1 reaches node 0 and node 0 reaches node 2; then the timers of the two fire. -/
def twoRequests : List (System.Action 3) :=
  [.deliver 2 (.plain 101 [] 0), .t1 0 (.plain 115 [] 0), .deliver 1 (.plain 101 [] 0),
    .t1 2 (.plain 115 [] 0)]

/-- Node 0 activates node 1 for round 1, and node 2 activates itself. -/
theorem nodes_elect_differently :
    ∃ s, Runs.run (System.step (.plain false)) (.start (.plain false) threeNodes threeTickets 1)
        twoRequests = some s ∧
      ∃ a ∈ s.activations, ∃ b ∈ s.activations, a.node ≠ b.node ∧ a.info.round = 1 ∧
        b.info.round = 1 ∧ a.info.electionNodeId ≠ b.info.electionNodeId := by
  decide

end JuChain.Protocol
