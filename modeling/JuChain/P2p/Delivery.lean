import JuChain.P2p.Peer

/-!
# Messages of the Juchain protocol

The messages of `p2p/protocol/peer.go` on a connection.  The protocol declares
`SYNC_BIGPERIOD_RESPONSE` codes, so that this code itself is the first that `WriteMsg` refuses
(`juchain_delivers_iff`).
-/

namespace JuChain.P2P

open List hiding Disjoint

/-- Each peer announces its protocols, in any order and perhaps repeatedly; name and version
determine the length. -/
structure Connection where
  left : List Protocol
  right : List Protocol
  leftCaps : List Cap
  rightCaps : List Cap
  leftCaps_iff : ∀ cap, cap ∈ leftCaps ↔ ∃ p ∈ left, p.cap = cap
  rightCaps_iff : ∀ cap, cap ∈ rightCaps ↔ ∃ p ∈ right, p.cap = cap
  consistent : ∀ p ∈ left ++ right, ∀ q ∈ left ++ right, p.cap = q.cap → p.length = q.length

namespace Connection

variable (k : Connection)

/-- The connection from the other side. -/
def flip : Connection where
  left := k.right
  right := k.left
  leftCaps := k.rightCaps
  rightCaps := k.leftCaps
  leftCaps_iff := k.rightCaps_iff
  rightCaps_iff := k.leftCaps_iff
  consistent := fun p hp q hq =>
    k.consistent p (perm_append_comm.mem_iff.1 hp) q (perm_append_comm.mem_iff.1 hq)

/-- The protocols that run on the left. -/
def running : List ProtoRW := matchProtocols k.left k.rightCaps

/-- The highest version of each shared protocol. -/
def common : Finset Protocol :=
  (k.left.toFinset ∩ k.right.toFinset).filter fun p =>
    ∀ q ∈ k.left.toFinset ∩ k.right.toFinset, q.name = p.name → q.version ≤ p.version

variable {k}

variable {p : Protocol}

theorem eq_of_cap {q : Protocol} (hp : p ∈ k.left ++ k.right) (hq : q ∈ k.left ++ k.right)
    (same : p.cap = q.cap) : p = q := by
  have length := k.consistent p hp q hq same
  obtain ⟨name, version⟩ := Cap.mk.inj same
  cases p
  simp_all

theorem mem_matched : p ∈ matched k.left k.rightCaps ↔ p ∈ k.left ∧ p ∈ k.right := by
  rw [matched, mem_filterMap]
  constructor
  · rintro ⟨cap, hcap, found⟩
    obtain ⟨hp, rfl⟩ := cap_of_lookup found
    obtain ⟨q, hq, same⟩ := (k.rightCaps_iff _).1 (mem_mergeSort.1 hcap)
    refine ⟨hp, ?_⟩
    rwa [← eq_of_cap (mem_append_right _ hq) (mem_append_left _ hp) same]
  · rintro ⟨hl, hr⟩
    refine ⟨p.cap, mem_mergeSort.2 ((k.rightCaps_iff _).2 ⟨p, hr, rfl⟩), ?_⟩
    have some : (lookup k.left p.cap).isSome := by
      rw [lookup, find?_isSome]
      exact ⟨p, hl, by simp⟩
    obtain ⟨q, hq⟩ := Option.isSome_iff_exists.1 some
    obtain ⟨mem, same⟩ := cap_of_lookup hq
    rw [hq, eq_of_cap (mem_append_left _ mem) (mem_append_left _ hl) same]

variable (k) in
/-- The shared protocols, in order. -/
def shared : List Protocol := tops (matched k.left k.rightCaps)

theorem descending_shared : Descending k.shared :=
  (foldl_assign (ascending_matched _ _) unique_matched).2.1

theorem mem_shared : p ∈ k.shared ↔ p ∈ k.common := by
  rw [shared, (foldl_assign (ascending_matched _ _) unique_matched).2.2, Best, mem_matched, common]
  simp only [mem_matched, Finset.mem_filter, Finset.mem_inter, mem_toFinset]

theorem common_flip : k.flip.common = k.common := by
  unfold common flip
  rw [Finset.inter_comm]

theorem running_eq : k.flip.running = k.running := by
  have same : k.flip.shared = k.shared :=
    List.Pairwise.eq_of_mem_iff descending_shared descending_shared fun p => by
      rw [mem_shared, mem_shared, common_flip]
  unfold running
  rw [matchProtocols_eq, matchProtocols_eq]
  exact congrArg places same

theorem nodup_shared : k.shared.Nodup :=
  descending_shared.imp fun lt same => lt.ne (congrArg Protocol.name same.symm)

theorem total_filter_shared (r : Protocol → Prop) [DecidablePred r] :
    total (k.shared.filter r) = 16 + ∑ p ∈ k.common with r p, p.length.toNat := by
  have toFinset : (k.shared.filter r).toFinset = k.common.filter r := by
    ext p
    simp [mem_shared]
  rw [total, ← toFinset, sum_toFinset _ (nodup_shared.filter _)]

end Connection

/-! ## What the protocol sends -/

/-- `SYNC_BIGPERIOD_RESPONSE`, taken for the number of messages. -/
def syncBigPeriodResponse : UInt64 := 0xb2

/-- The protocol of this repository. -/
def juchain : Protocol := ⟨[111, 98, 111, 100], 1, syncBigPeriodResponse⟩

/-- The methods of a peer that send a message. -/
inductive Send where
  | handshake
  | sendTransactions
  | sendDAppTransactions
  | sendNewBlockHashes
  | sendNewBlock
  | sendBlockHeaders
  | sendBlockBodies
  | sendBlockBodiesRLP
  | sendNodeData
  | sendReceiptsRLP
  | requestOneHeader
  | requestHeadersByHash
  | requestHeadersByNumber
  | requestBodies
  | requestNodeData
  | requestReceipts
  | sendSyncBigPeriodRequest
  | sendSyncBigPeriodResponse
  | sendVoteElectionRequest
  | sendVoteElectionResponse
  | sendBroadcastVotedElection
  | sendBestNodeConflict
  deriving DecidableEq

/-- The message code. -/
def Send.code : Send → UInt64
  | handshake => 0x00
  | sendTransactions => 0x07
  | sendDAppTransactions => 0x08
  | sendNewBlockHashes => 0x01
  | sendNewBlock => 0x06
  | sendBlockHeaders => 0x03
  | sendBlockBodies => 0x05
  | sendBlockBodiesRLP => 0x05
  | sendNodeData => 0x0e
  | sendReceiptsRLP => 0x10
  | requestOneHeader => 0x02
  | requestHeadersByHash => 0x02
  | requestHeadersByNumber => 0x02
  | requestBodies => 0x04
  | requestNodeData => 0x0d
  | requestReceipts => 0x0f
  | sendSyncBigPeriodRequest => 0xb1
  | sendSyncBigPeriodResponse => syncBigPeriodResponse
  | sendVoteElectionRequest => 0xa1
  | sendVoteElectionResponse => 0xa2
  | sendBroadcastVotedElection => 0xa3
  | sendBestNodeConflict => 0xa4

theorem code_lt_iff (m : Send) : m.code < juchain.length ↔ m ≠ .sendSyncBigPeriodResponse := by
  cases m <;> decide

namespace Connection

variable (k : Connection)

/-- Both peers have the same table, with ranges apart and above the base protocol. -/
structure Agree : Prop where
  same : ∀ rw, rw ∈ k.running ↔ rw ∈ k.flip.running
  above : ∀ rw ∈ k.running, ∀ code ∈ rw.codes, baseProtocolLength ≤ code
  apart : k.running.Pairwise fun a b => Disjoint a.codes b.codes

/-- What the left peer writes as protocol `p` is read by the right peer as the same message of `p`.
-/
def Delivers (p : Protocol) (msg : Msg) : Prop :=
  ∃ rw ∈ k.running, rw.protocol = p ∧ ∃ wire, rw.writeMsg msg = .ok wire ∧
    ∀ order, order.Perm k.flip.running →
      ∃ rw', handle order wire = .received rw' ∧ rw'.protocol = p ∧ rw'.readMsg wire = msg

/-- The declared lengths fit in 64 bits, and the range of `p` ends before the last code. -/
def Fits (p : Protocol) : Prop :=
  16 + ∑ q ∈ k.common, q.length.toNat ≤ 2 ^ 64 ∧
    16 + ∑ q ∈ k.common with q.name ≤ p.name, q.length.toNat < 2 ^ 64

instance decidableFits (p : Protocol) : Decidable (k.Fits p) := inferInstanceAs (Decidable (_ ∧ _))

variable {k} {p : Protocol}

theorem running_eq_places : k.running = places k.shared := matchProtocols_eq _ _

theorem total_shared : total k.shared = 16 + ∑ q ∈ k.common, q.length.toNat := by
  have all := total_filter_shared (k := k) fun _ => True
  simpa using all

theorem agree_iff : k.Agree ↔ total k.shared ≤ 2 ^ 64 := by
  have above := above_iff k.shared
  rw [← running_eq_places] at above
  constructor
  · exact fun agree => above.1 agree.above
  · intro fits
    refine ⟨fun rw => by rw [running_eq], above.2 fits, ?_⟩
    rw [running_eq_places]
    exact apart_of_total_le fits

theorem total_upto {before after : List Protocol} (split : k.shared = before ++ p :: after) :
    total (p :: after) = 16 + ∑ q ∈ k.common with q.name ≤ p.name, q.length.toNat := by
  have desc := descending_shared (k := k)
  rw [split] at desc
  obtain ⟨-, desc, higher⟩ := pairwise_append.1 desc
  have lower := (pairwise_cons.1 desc).1
  have upto : k.shared.filter (fun q => q.name ≤ p.name) = p :: after := by
    rw [split, filter_append]
    have none : before.filter (fun q => q.name ≤ p.name) = [] := by
      refine filter_eq_nil_iff.2 fun q hq => ?_
      simpa using higher q hq p mem_cons_self
    have all : (p :: after).filter (fun q => q.name ≤ p.name) = p :: after := by
      refine filter_eq_self.2 fun q hq => ?_
      obtain rfl | hq := mem_cons.1 hq
      · simp
      · simpa using (lower q hq).le
    rw [none, all]
    rfl
  rw [← upto]
  exact total_filter_shared _

theorem handle_received {order : List ProtoRW} {msg : Msg} {rw : ProtoRW}
    (base : baseProtocolLength ≤ msg.code) :
    handle order msg = .received rw ↔ getProto order msg.code = some rw := by
  have notLt : ¬ msg.code < baseProtocolLength := UInt64.not_lt.2 base
  have ne {c : UInt64} (hc : c < baseProtocolLength) : msg.code ≠ c := fun h => notLt (h ▸ hc)
  unfold handle
  rw [if_neg (ne (by decide)), if_neg (ne (by decide)), if_neg notLt]
  cases getProto order msg.code <;> simp

theorem delivers_iff (fits : total k.shared ≤ 2 ^ 64) (shared : p ∈ k.common) (msg : Msg) :
    k.Delivers p msg ↔ msg.code < p.length ∧
      16 + ∑ q ∈ k.common with q.name ≤ p.name, q.length.toNat < 2 ^ 64 := by
  have base {before after : List Protocol} (split : k.shared = before ++ p :: after)
      (hc : msg.code < p.length) : baseProtocolLength ≤ msg.code + ends after :=
    (above_iff k.shared).2 fits ⟨p, ends after⟩ (mem_places_iff.2 ⟨before, after, split, rfl⟩) _
      ⟨msg.code, hc, rfl⟩
  constructor
  · rintro ⟨rw, hrw, rfl, wire, wrote, arrives⟩
    rw [running_eq_places] at hrw
    obtain ⟨before, after, split, offset⟩ := mem_places_iff.1 hrw
    unfold ProtoRW.writeMsg at wrote
    split_ifs at wrote with refused
    have hc : msg.code < rw.protocol.length := UInt64.not_le.1 refused
    obtain rfl := Except.ok.inj wrote
    refine ⟨hc, ?_⟩
    rw [← total_upto split]
    obtain ⟨rw', received, protocol, read⟩ := arrives _ (List.Perm.refl _)
    have same : rw' = ⟨rw.protocol, ends after⟩ := by
      have code : msg.code + rw.offset - rw'.offset = msg.code := congrArg Msg.code read
      rw [UInt64.sub_eq_iff_eq_add, UInt64.add_right_inj] at code
      cases rw'
      simp_all
    rw [offset] at received
    rw [handle_received (base split hc), same] at received
    have order : k.flip.running.Perm (places k.shared) := by rw [running_eq, running_eq_places]
    exact (getProto_iff fits split order hc).1 received
  · rintro ⟨hc, room⟩
    obtain ⟨before, after, split⟩ := append_of_mem (mem_shared.2 shared)
    have here : (⟨p, ends after⟩ : ProtoRW) ∈ k.running := by
      rw [running_eq_places]
      exact mem_places_iff.2 ⟨before, after, split, rfl⟩
    refine ⟨_, here, rfl, { msg with code := msg.code + ends after }, ?_, fun order perm => ?_⟩
    · exact if_neg (UInt64.not_le.2 hc)
    · rw [running_eq, running_eq_places] at perm
      have found := (getProto_iff fits split perm hc).2 ((total_upto split).trans_lt room)
      refine ⟨⟨p, ends after⟩, (handle_received (base split hc)).2 found, rfl, ?_⟩
      rw [ProtoRW.readMsg, UInt64.add_sub_cancel]

end Connection

/-- The tables of two peers agree and a message is delivered both ways, unless it is the answer to a
request for the big period or the lengths do not fit in 64 bits. -/
theorem juchain_delivers_iff (k : Connection) (hl : juchain ∈ k.left) (hr : juchain ∈ k.right)
    (single : ∀ p ∈ k.left ++ k.right, p.name = juchain.name → p = juchain) (m : Send)
    (payload : List UInt8) :
    k.Agree ∧ k.Delivers juchain ⟨m.code, payload⟩ ∧ k.flip.Delivers juchain ⟨m.code, payload⟩ ↔
      m ≠ .sendSyncBigPeriodResponse ∧ k.Fits juchain := by
  have common : juchain ∈ k.common := by
    simp only [Connection.common, Finset.mem_filter, Finset.mem_inter, mem_toFinset]
    refine ⟨⟨hl, hr⟩, fun q hq same => ?_⟩
    rw [single q (mem_append_left _ hq.1) same]
  have common' : juchain ∈ k.flip.common := by
    rw [Connection.common_flip]
    exact common
  rw [Connection.agree_iff, Connection.Fits, ← Connection.total_shared]
  by_cases fits : total k.shared ≤ 2 ^ 64
  · have fits' : total k.flip.shared ≤ 2 ^ 64 := by
      rwa [Connection.total_shared, Connection.common_flip, ← Connection.total_shared]
    rw [Connection.delivers_iff fits common, Connection.delivers_iff fits' common',
      Connection.common_flip, code_lt_iff]
    tauto
  · exact iff_of_false (fun h => fits h.1) fun h => fits h.2.1

/-- Two versions of another protocol. -/
def other (version : ℕ) : Protocol := ⟨[97], version, 9⟩

/-- Peers that share two protocols. -/
def sharedConnection : Connection where
  left := [other 1, juchain, other 2]
  right := [juchain, other 2, other 3]
  leftCaps := [other 1, juchain, other 2].map Protocol.cap
  rightCaps := [juchain, other 2, other 3].map Protocol.cap
  leftCaps_iff := by simp [eq_comm]
  rightCaps_iff := by simp [eq_comm]
  consistent := by decide

theorem shared_delivers_vote : sharedConnection.Delivers juchain ⟨0xa1, [0xc0]⟩ := by
  have delivered := (juchain_delivers_iff sharedConnection (by decide) (by decide) (by decide)
    .sendVoteElectionRequest [0xc0]).2 ⟨by decide, by decide +kernel⟩
  exact delivered.2.1

/-- Two peers with this protocol alone. -/
def plainConnection : Connection where
  left := [juchain]
  right := [juchain]
  leftCaps := [juchain.cap]
  rightCaps := [juchain.cap]
  leftCaps_iff := by simp [eq_comm]
  rightCaps_iff := by simp [eq_comm]
  consistent := by simp

/-- The answer to a request for the big period does not leave the peer. -/
theorem plain_refuses_bigPeriodResponse : plainConnection.running = [⟨juchain, 16⟩] ∧
      ProtoRW.writeMsg ⟨juchain, 16⟩ ⟨Send.sendSyncBigPeriodResponse.code, []⟩ =
        .error .invalidMsgCode := by
  exact ⟨by decide +kernel, rfl⟩

end JuChain.P2P
