import JuChain.Protocol.Delegate
import Mathlib.Data.Set.Defs

/-!
# Slots: producing and admitting blocks

A delegate produces a block when `isMyTurn` holds at its clock.  A peer that receives the block asks
`wasHisTurn` (`handler.go`, `NewBlockMsg`), and refuses it when the answer is *yes*
(`admission_iff`).
-/

namespace JuChain.Protocol

open Int64

namespace GigPeriodTable

variable (t : GigPeriodTable)

/-- The times of slot `i`. -/
def slot (i : ℕ) : Set Int64 :=
  { now | t.beatStartTime i ≤ now ∧ now < t.beatStartTime i + smallPeriodInterval.toUInt64.toInt64 }

theorem isMyTurn_iff (id : GoString) (now : Int64) :
    t.isMyTurn id now = true ↔ ∃ i, t.delegatedNodes[i]? = some id ∧ now ∈ t.slot i := by
  unfold isMyTurn
  rw [List.any_eq_true]
  constructor
  · rintro ⟨⟨d, i⟩, hd, h⟩
    simp only [Bool.and_eq_true, beq_iff_eq, decide_eq_true_eq] at h
    obtain ⟨rfl, hle, hlt⟩ := h
    exact ⟨i, List.mem_zipIdx_iff_getElem?.1 hd, hle, hlt⟩
  · rintro ⟨i, hd, hle, hlt⟩
    refine ⟨(id, i), List.mem_zipIdx_iff_getElem?.2 hd, ?_⟩
    simp only [Bool.and_eq_true, beq_iff_eq, decide_eq_true_eq, true_and]
    exact ⟨hle, hlt⟩

/-- The second in which a slot of the node ends. -/
def Closing (id : GoString) (time : Int64) : Prop :=
  ∃ i, t.delegatedNodes[i]? = some id ∧ t.beatStartTime i ≤ time ∧
    time = t.beatStartTime i + smallPeriodInterval.toUInt64.toInt64

/-- The first seconds of a table of the history that lists the node. -/
def Opening (history : List GigPeriodTable) (id : GoString) (time : Int64) : Prop :=
  ∃ v ∈ history, id ∈ v.delegatedNodes ∧ v.activeTime.toInt64 ≤ time ∧
    time ≤ v.activeTime.toInt64 + smallPeriodInterval.toUInt64.toInt64

theorem wasHisTurn_iff (history : List GigPeriodTable) (round : UInt64) (id : GoString) (time : Int64) :
    t.wasHisTurn history round id time = true ↔
      t.isMyTurn id time = true ∨ t.Closing id time ∨ Opening history id time := by
  have slots : (t.delegatedNodes.zipIdx.any fun e =>
      e.1 == id && (decide (t.beatStartTime e.2 ≤ time) &&
        decide (t.beatStartTime e.2 + smallPeriodInterval.toUInt64.toInt64 ≥ time))) = true ↔
      t.isMyTurn id time = true ∨ t.Closing id time := by
    rw [List.any_eq_true, isMyTurn_iff]
    constructor
    · rintro ⟨⟨d, i⟩, hd, h⟩
      simp only [Bool.and_eq_true, beq_iff_eq, decide_eq_true_eq] at h
      obtain ⟨rfl, hle, hge⟩ := h
      have hd := List.mem_zipIdx_iff_getElem?.1 hd
      by_cases heq : time = t.beatStartTime i + smallPeriodInterval.toUInt64.toInt64
      · exact Or.inr ⟨i, hd, hle, heq⟩
      · exact Or.inl ⟨i, hd, hle, Int64.lt_of_le_of_ne hge heq⟩
    · rintro (⟨i, hd, hle, hlt⟩ | ⟨i, hd, hle, heq⟩)
      · refine ⟨(id, i), List.mem_zipIdx_iff_getElem?.2 hd, ?_⟩
        simp only [Bool.and_eq_true, beq_iff_eq, decide_eq_true_eq, true_and]
        exact ⟨hle, Int64.le_of_lt hlt⟩
      · refine ⟨(id, i), List.mem_zipIdx_iff_getElem?.2 hd, ?_⟩
        simp only [Bool.and_eq_true, beq_iff_eq, decide_eq_true_eq, true_and]
        exact ⟨hle, heq ▸ Int64.le_refl _⟩
  have past : (history.any fun v =>
      decide (v.activeTime.toInt64 ≤ time) &&
        decide (v.activeTime.toInt64 + smallPeriodInterval.toUInt64.toInt64 ≥ time) &&
          v.delegatedNodes.any fun d => d == id) = true ↔ Opening history id time := by
    rw [List.any_eq_true]
    refine exists_congr fun v => and_congr_right fun _ => ?_
    simp only [Bool.and_eq_true, decide_eq_true_eq, List.any_eq_true, beq_iff_eq, exists_eq_right]
    constructor
    · rintro ⟨⟨hle, hge⟩, mem⟩
      exact ⟨mem, hle, hge⟩
    · rintro ⟨mem, hle, hge⟩
      exact ⟨⟨hle, hge⟩, mem⟩
  unfold wasHisTurn
  rw [Bool.or_eq_true, slots, past, or_assoc]

end GigPeriodTable

/-! ## Producing -/

/-- `Prepare`, the transactions and `Finalize`.  It may fail, and leaves the fields below as they
are. -/
structure Packager where
  finish : Header → Option Block
  finish_header : ∀ h b, finish h = some b →
    b.header.round = h.round ∧ b.header.presidentId = h.presidentId ∧ b.header.time = h.time

/-- The time of the new block. -/
def timestamp (now : Int64) (parent : Block) : Int64 :=
  if parent.time ≥ now.toInt then ofInt parent.time + 1 else now

def generateNewBlock (packager : Packager) (now : Int64) (parent : Block) (round : UInt64)
    (presidentId : GoString) : Option Block :=
  packager.finish
    { parentHash := parent.hash
      difficulty := 0
      number := parent.number + 1
      time := (timestamp now parent).toInt
      round := round
      presidentId := presidentId }

def roundRobinSafely (packager : Packager) (n : Node) (now : Int64) (parent : Block)
    (fastBlockRound : UInt64) : Option Block :=
  if !n.isDelegatedNode then none
  else
    match n.gigPeriodInstance with
    | none => none
    | some t =>
      if t.isMyTurn n.currNodeId now then
        generateNewBlock packager now parent (fastBlockRound + 1) n.currNodeId
      else none

/-- The block came in its turn. -/
def GigPeriodTable.HadTurn (t : GigPeriodTable) (b : Block) : Prop :=
  t.isMyTurn b.presidentID (ofInt b.time) = true

/-- A delegate that holds the table made the block in its turn, and the stamp is still in one of its
slots. -/
def ProducedInSlot (t : GigPeriodTable) (b : Block) : Prop :=
  ∃ packager producer now parent fastBlockRound,
    producer.gigPeriodInstance = some t ∧
    roundRobinSafely packager producer now parent fastBlockRound = some b ∧
    t.isMyTurn producer.currNodeId (timestamp now parent) = true

/-! ## Admitting -/

structure Peer where
  id : GoString
  head : Hash
  td : ℤ

/-- What a new block leads to. -/
inductive BlockEffect where
  | markBlock (hash : Hash)
  | enqueue (peer : GoString) (block : Block)
  | setHead (hash : Hash) (td : ℤ)
  | synchronise (peer : GoString)
  deriving DecidableEq

/-- `NewBlockMsg`, with the total difficulty of the current block. -/
def handleNewBlock (n : Node) (currentTd : ℤ) (p : Peer) (block : Block) (td : ℤ) :
    List BlockEffect × Option ErrResp :=
  let refused := match n.gigPeriodInstance with
    | none => false
    | some t =>
      t.wasHisTurn n.gigPeriodHistory block.round block.presidentID (ofInt block.time)
  if refused then ([], some .invalidTimestamp)
  else
    let trueTD := td - block.difficulty
    let better :=
      if trueTD > p.td then
        .setHead block.parentHash trueTD ::
          (if trueTD > currentTd then [.synchronise p.id] else [])
      else []
    (.markBlock block.hash :: .enqueue p.id block :: better, none)

/-- What a peer that holds the table should do with a block: fetch it if it was produced in its
slot, and refuse it if its president did not have the turn. -/
def Admission (n : Node) (t : GigPeriodTable) (currentTd : ℤ) (p : Peer) (b : Block) (td : ℤ) : Prop :=
  (ProducedInSlot t b →
    .enqueue p.id b ∈ (handleNewBlock { n with gigPeriodInstance := some t } currentTd p b td).1) ∧
  (¬ t.HadTurn b →
    handleNewBlock { n with gigPeriodInstance := some t } currentTd p b td =
      ([], some .invalidTimestamp))

section Admitting

variable (n : Node) (t : GigPeriodTable) (currentTd : ℤ) (p : Peer) (b : Block) (td : ℤ)

theorem handleNewBlock_refused
    (h : t.wasHisTurn n.gigPeriodHistory b.round b.presidentID (ofInt b.time) = true) :
    handleNewBlock { n with gigPeriodInstance := some t } currentTd p b td =
      ([], some .invalidTimestamp) := by
  simp [handleNewBlock, h]

theorem handleNewBlock_admitted
    (h : t.wasHisTurn n.gigPeriodHistory b.round b.presidentID (ofInt b.time) = false) :
    .enqueue p.id b ∈ (handleNewBlock { n with gigPeriodInstance := some t } currentTd p b td).1 ∧
      (handleNewBlock { n with gigPeriodInstance := some t } currentTd p b td).2 = none := by
  simp [handleNewBlock, h]

/-- Only blocks made outside their slot can be treated as they should. -/
theorem admission_iff : Admission n t currentTd p b td ↔ ¬ ProducedInSlot t b ∧
        (t.HadTurn b ∨ t.Closing b.presidentID (ofInt b.time) ∨
          GigPeriodTable.Opening n.gigPeriodHistory b.presidentID (ofInt b.time)) := by
  unfold GigPeriodTable.HadTurn
  rw [← t.wasHisTurn_iff n.gigPeriodHistory b.round]
  unfold Admission
  cases turn : t.wasHisTurn n.gigPeriodHistory b.round b.presidentID (ofInt b.time) with
  | true =>
    rw [handleNewBlock_refused n t currentTd p b td turn]
    simp
  | false =>
    obtain ⟨-, err⟩ := handleNewBlock_admitted n t currentTd p b td turn
    have without : ¬ t.HadTurn b := by
      intro had
      rw [(t.wasHisTurn_iff n.gigPeriodHistory b.round _ _).2 (Or.inl had)] at turn
      cases turn
    refine iff_of_false (fun h => ?_) (by simp)
    rw [h.2 without] at err
    cases err

end Admitting

/-- Takes the header as it is. -/
def Packager.plain : Packager where
  finish := fun h => some ⟨1, h, []⟩
  finish_header := by
    rintro h b hb
    obtain rfl := Option.some.inj hb
    exact ⟨rfl, rfl, rfl⟩

/-- A table with one delegate. -/
def GigPeriodTable.sample : GigPeriodTable :=
  .looking 1 [Hex.encode NodeIdent.sample.bytes] 0 1000

/-- A block of it. -/
def sampleBlock : Block := ⟨1, ⟨0, 0, 1, 1002, 1, Hex.encode NodeIdent.sample.bytes⟩, []⟩

theorem producedInSlot_sample : ProducedInSlot .sample sampleBlock :=
  ⟨.plain, { Node.init .sample [Hex.encode NodeIdent.sample.bytes] [] with
      gigPeriodInstance := some .sample },
    1002, ⟨0, ⟨0, 1, 0, 900, 0, []⟩, []⟩, 0, rfl, by decide, by decide⟩

/-- A block made in the middle of its slot is refused. -/
theorem block_in_slot_refused :
    ¬ ∀ (n : Node) (t : GigPeriodTable) (currentTd : ℤ) (p : Peer) (b : Block) (td : ℤ),
      Admission n t currentTd p b td := by
  intro h
  have queued := (h (.fresh .sample) .sample 0 ⟨[7], 0, 0⟩ sampleBlock 1).1 producedInSlot_sample
  revert queued
  decide

end JuChain.Protocol
