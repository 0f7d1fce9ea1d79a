import JuChain.Core.Types
import JuChain.Lib.Hex
import JuChain.Lib.Tally

/-!
# Messages and state of the DPoS managers

The vote manager (`dvotehandler.go`) and the delegate manager (`dposhandler.go`) of one node work on
the same package variables, collected here in `Node`.  A handler takes an `Env`, the values it reads
from outside, and returns the new variables with the `Effect`s it had, or the run-time panic it ran
into (`Outcome`).  Fields of messages that no handler reads are left out.
-/

namespace JuChain.Protocol

open Tally

/-!
## Constants

Intervals are in seconds.  `VOTESTATE_STOP` and `VOTESTATE_MISMATCHED_ROUND` have the same value.
-/

def totalDelegatorNumber : UInt8 := 31

def smallPeriodInterval : UInt32 := 5

def gigPeriodInterval : UInt32 := totalDelegatorNumber.toUInt32 * 5

def bigPeriodHistorySize : UInt8 := 10

def electingInterval : UInt32 := 15

def bnConflictInterval : UInt32 := 4

/-- `VOTESTATE_LOOKING`. -/
def voteStateLooking : UInt8 := 0xb0

/-- `VOTESTATE_SELECTED`. -/
def voteStateSelected : UInt8 := 0xb1

/-- `VOTESTATE_STOP`. -/
def voteStateStop : UInt8 := 0xb2

/-- `VOTESTATE_MISMATCHED_ROUND`. -/
def voteStateMismatchedRound : UInt8 := 0xb2

/-- `STATE_LOOKING`. -/
def stateLooking : UInt8 := 0xc0

/-- `STATE_CONFIRMED`. -/
def stateConfirmed : UInt8 := 0xc1

/-- `STATE_MISMATCHED_ROUND`. -/
def stateMismatchedRound : UInt8 := 0xc2

/-- `STATE_MISMATCHED_DNUMBER`. -/
def stateMismatchedDNumber : UInt8 := 0xc3

/-! ## Messages -/

structure VoteElectionRequest where
  round : UInt64
  tickets : UInt32
  activeTime : UInt64
  nodeId : Bytes
  deriving DecidableEq

structure VoteElectionResponse where
  round : UInt64
  tickets : UInt32
  activeTime : UInt64
  state : UInt8
  electionNodeId : Bytes
  deriving DecidableEq

structure BroadcastVotedElection where
  round : UInt64
  tickets : UInt32
  activeTime : UInt64
  state : UInt8
  electionNodeId : Bytes
  deriving DecidableEq

structure BroadcastBestNodeConflict where
  round : UInt64
  tickets : UInt32
  activeTime : UInt64
  electionNodeId : Bytes
  deriving DecidableEq

structure SyncBigPeriodRequest where
  round : UInt64
  activeTime : UInt64
  delegatedTable : List GoString
  delegatedTableSign : Hash
  nodeId : Bytes
  deriving DecidableEq

structure SyncBigPeriodResponse where
  round : UInt64
  activeTime : UInt64
  delegatedTable : List GoString
  delegatedTableSign : Hash
  state : UInt8
  nodeId : Bytes
  deriving DecidableEq

/-- The messages, and others that cannot be decoded. -/
inductive Msg where
  | voteElectionRequest (request : VoteElectionRequest)
  | voteElectionResponse (response : VoteElectionResponse)
  | votedElectionBroadcast (response : BroadcastVotedElection)
  | bestNodeConflict (response : BroadcastBestNodeConflict)
  | syncBigPeriodRequest (request : SyncBigPeriodRequest)
  | syncBigPeriodResponse (response : SyncBigPeriodResponse)
  | malformed (code : UInt64)
  | unknown (code : UInt64)
  deriving DecidableEq

/-- The message code. -/
def Msg.code : Msg → UInt64
  | voteElectionRequest _ => 0xa1
  | voteElectionResponse _ => 0xa2
  | votedElectionBroadcast _ => 0xa3
  | bestNodeConflict _ => 0xa4
  | syncBigPeriodRequest _ => 0xb1
  | syncBigPeriodResponse _ => 0xb2
  | malformed code => code
  | unknown code => code

/-! ## State -/

structure ElectionInfo where
  round : UInt64
  enodestate : UInt8
  electionTickets : UInt32
  electionNodeId : GoString
  electionNodeIdHash : Bytes
  activeTime : UInt64
  confirmedTickets : Map GoString UInt32
  confirmedActiveTimes : Map GoString UInt64
  deriving DecidableEq

/-- The `GigPeriodTable` a response is stored as; its state is always `STATE_CONFIRMED` and its maps
are nil. -/
structure ReportedTable where
  round : UInt64
  delegatedNodes : List GoString
  delegatedNodesSign : Hash
  activeTime : UInt64
  deriving DecidableEq

structure GigPeriodTable where
  round : UInt64
  state : UInt8
  delegatedNodes : List GoString
  delegatedNodesSign : Hash
  confirmedTickets : Map GoString UInt32
  confirmedBestNode : Map GoString ReportedTable
  activeTime : UInt64
  deriving DecidableEq

/-- A delegate in the contract. -/
structure NodeInfo where
  id : Bytes
  deriving DecidableEq

/-- The short id of a node: the first eight bytes of its public key. -/
structure NodeIdent where
  bytes : Bytes
  length_bytes : bytes.length = 8
  deriving DecidableEq

/-- An id. -/
def NodeIdent.sample : NodeIdent := ⟨[1, 2, 3, 4, 5, 6, 7, 8], rfl⟩

/-- The variables of a node. -/
structure Node where
  ident : NodeIdent
  electionInfo0 : Option ElectionInfo
  nextElectionInfo : Option ElectionInfo
  lastElectedNodeId : GoString
  gigPeriodHistory : List GigPeriodTable
  gigPeriodInstance : Option GigPeriodTable
  nextGigPeriodInstance : Option GigPeriodTable
  delegatorsTable : List GoString
  delegatorNodeInfo : List NodeInfo
  deriving DecidableEq

/-- `currNodeId`: `TerminalString` of the public key. -/
def Node.currNodeId (n : Node) : GoString := Hex.encode n.ident.bytes

/-- The bytes of the id. -/
def Node.currNodeIdHash (n : Node) : Bytes := Hex.decode n.currNodeId

@[simp] theorem Node.currNodeIdHash_eq (n : Node) : n.currNodeIdHash = n.ident.bytes :=
  Hex.decode_encode _

/-- The variables after `NewDVoteProtocolManager`, whose delegate manager has read the table of
delegators once. -/
def Node.init (ident : NodeIdent) (delegators : List GoString) (infos : List NodeInfo) : Node where
  ident := ident
  electionInfo0 := none
  nextElectionInfo := none
  lastElectedNodeId := []
  gigPeriodHistory := []
  gigPeriodInstance := none
  nextGigPeriodInstance := none
  delegatorsTable := delegators
  delegatorNodeInfo := infos

/-- A node that knows no delegates. -/
def Node.fresh (ident : NodeIdent) : Node := Node.init ident [] []

/-! ## Environment and effects -/

/-- What the contract answers. -/
structure Refresh where
  table : List GoString
  nodes : List NodeInfo
  err : Bool
  deriving DecidableEq

/-- The test switch and `SignCandidates`, the Keccak hash of the encoded table. -/
structure Config where
  testMode : Bool
  signCandidates : List GoString → Hash

/-- What a call finds around it. -/
structure Env where
  /-- `time.Now().Unix()`. -/
  now : Int64
  peers : List GoString
  refresh : Refresh
  /-- `rand.Intn(100)`, the tickets of a new round. -/
  ticket : UInt32
  /-- `rand.Intn(5)`, the delay before another attempt without peers. -/
  retry : Int64
  /-- The order in which Go lists a map of tickets. -/
  order : List (Σ _ : GoString, UInt32) → List (Σ _ : GoString, UInt32)
  order_perm : ∀ es, (order es).Perm es

/-- An environment without delegates. -/
def Env.plain (now : Int64) (peers : List GoString) (ticket : UInt32) : Env where
  now := now
  peers := peers
  refresh := ⟨[], [], false⟩
  ticket := ticket
  retry := 0
  order := id
  order_perm := fun _ => .refl _

/-- All tables have signature zero. -/
def Config.plain (testMode : Bool) : Config := ⟨testMode, fun _ => 0⟩

/-- A call that is made later. -/
inductive Callback where
  | scheduleElecting
  | checkBestNodeConflict
  | electNodeSafely
  | syncDelegatedNodeSafely
  deriving DecidableEq

/-- What a handler does besides changing the package variables. -/
inductive Effect where
  | send (peer : GoString) (msg : Msg)
  | go (call : Callback)
  | afterFunc (seconds : Int64) (call : Callback)
  /-- Stop the timer `t1` of the vote manager and start it again. -/
  | resetT1 (seconds : Int64)
  /-- Forget `t1` without stopping it. -/
  | forgetT1
  /-- Stop the timer `t1` of the delegate manager and start it again. -/
  | resetSyncT1 (seconds : Int64)
  | addPeer (info : NodeInfo)
  /-- The log line "Confirmed the best election node", with the round it activates. -/
  | confirmed (round : UInt64) (nodeId : GoString)
  /-- The log lines "Elect for next round" and "Mismatched round, switch to". -/
  | electing (round : UInt64)
  /-- The log line "Switched the new big period round". -/
  | switched (round : UInt64)
  deriving DecidableEq

inductive ErrResp where
  | decode
  | delegatorSign
  | invalidMsgCode (code : UInt64)
  | invalidTimestamp
  deriving DecidableEq

/-- How a call crashes. -/
inductive Crash where
  | nilDereference
  | sliceOutOfRange
  | indexOutOfRange
  deriving DecidableEq

/-- What a handler leaves behind: the variables, its effects and the error it returns. -/
structure Reply where
  node : Node
  effects : List Effect
  err : Option ErrResp
  deriving DecidableEq

/-- A reply, or a crash. -/
abbrev Outcome := Except Crash Reply

/-- The call returns nil. -/
def done (n : Node) (effects : List Effect) : Outcome := .ok ⟨n, effects, none⟩

/-- The call returns an error. -/
def fail (n : Node) (err : ErrResp) : Outcome := .ok ⟨n, [], some err⟩

/-- A nil pointer is dereferenced, or not. -/
def deref {α β : Type} (p : Option α) (f : α → Except Crash β) : Except Crash β :=
  match p with
  | none => .error .nilDereference
  | some a => f a

variable {β : Type}

@[simp] theorem deref_none {α : Type} (f : α → Except Crash β) :
    deref none f = .error .nilDereference := rfl

@[simp] theorem deref_some {α : Type} (a : α) (f : α → Except Crash β) : deref (some a) f = f a := rfl

theorem deref_eq_ok {α : Type} {p : Option α} {f : α → Except Crash β} {b : β} (h : deref p f = .ok b) :
    ∃ a, p = some a ∧ f a = .ok b := by
  cases p with
  | none => cases h
  | some a => exact ⟨a, rfl, h⟩

/-- `id[:8]` of a decoded byte slice, whose capacity is its length. -/
def firstEight {β : Type} (id : Bytes) (f : Bytes → Except Crash β) : Except Crash β :=
  if id.length < 8 then .error .sliceOutOfRange else f (id.take 8)

theorem firstEight_eq_ok {id : Bytes} {f : Bytes → Except Crash β} {b : β}
    (h : firstEight id f = .ok b) : 8 ≤ id.length ∧ f (id.take 8) = .ok b := by
  unfold firstEight at h
  split_ifs at h with short
  exact ⟨Nat.le_of_not_lt short, h⟩

end JuChain.Protocol
