import JuChain.Lib.Word
import JuChain.Protocol.Slot

/-!
# Late blocks

A block that arrives after the big period of its producer is judged by the tables of the history:
`wasHisTurn` admits every delegate of a table in its first seconds, and nobody in the slots that
follow.
-/

namespace JuChain.Protocol

namespace GigPeriodTable

variable {time : Int64}

/-- The slot of position `i` contains the second, without any wrap-around. -/
def InSlot (v : GigPeriodTable) (i : ℕ) (time : Int64) : Prop :=
  (v.activeTime.toNat + i * smallPeriodInterval.toNat : ℤ) ≤ time.toInt ∧
    time.toInt < v.activeTime.toNat + (i + 1) * smallPeriodInterval.toNat

/-- The time is in a slot of the delegate in some table. -/
def Owned (history : List GigPeriodTable) (id : GoString) (time : Int64) : Prop :=
  ∃ v ∈ history, ∃ i, v.delegatedNodes[i]? = some id ∧ v.InSlot i time

/-- The time is in a slot of the table. -/
def Covers (t : GigPeriodTable) (time : Int64) : Prop :=
  ∃ i < t.delegatedNodes.length, t.beatStartTime i ≤ time ∧
    time ≤ t.beatStartTime i + smallPeriodInterval.toUInt64.toInt64

/-- The table became active at most `SmallPeriodInterval` seconds ago. -/
def Opens (v : GigPeriodTable) (time : Int64) : Prop :=
  v.activeTime.toInt64 ≤ time ∧ time ≤ v.activeTime.toInt64 + smallPeriodInterval.toUInt64.toInt64

theorem wasHisTurn_iff_opens {t : GigPeriodTable} (outside : ¬ t.Covers time)
    (history : List GigPeriodTable) (round : UInt64) (id : GoString) :
    t.wasHisTurn history round id time = true ↔
      ∃ v ∈ history, id ∈ v.delegatedNodes ∧ v.Opens time := by
  have idle : ¬ t.isMyTurn id time = true := by
    rw [isMyTurn_iff]
    rintro ⟨i, hd, start, stop⟩
    have hi : i < t.delegatedNodes.length := (List.getElem?_eq_some_iff.1 hd).1
    exact outside ⟨i, hi, start, Int64.le_of_lt stop⟩
  have before : ¬ t.Closing id time := by
    rintro ⟨i, hd, start, stop⟩
    have hi : i < t.delegatedNodes.length := (List.getElem?_eq_some_iff.1 hd).1
    exact outside ⟨i, hi, start, stop ▸ Int64.le_refl _⟩
  rw [wasHisTurn_iff]
  constructor
  · rintro (mine | closing | opening)
    · exact absurd mine idle
    · exact absurd closing before
    · exact opening
  · intro opening
    exact Or.inr (Or.inr opening)

theorem InSlot.unique {v : GigPeriodTable} {i j : ℕ} (hi : v.InSlot i time)
    (hj : v.InSlot j time) : i = j := by
  obtain ⟨hi, hi'⟩ := hi
  obtain ⟨hj, hj'⟩ := hj
  have interval : smallPeriodInterval.toNat = 5 := rfl
  rw [interval] at hi hi' hj hj'
  omega

/-- In a table a second has at most one owner, so a history has no more owners than tables. -/
theorem length_le_of_owned {history : List GigPeriodTable} {ids : List GoString}
    (distinct : ids.Nodup) (owned : ∀ id ∈ ids, Owned history id time) :
    ids.length ≤ history.length := by
  choose table mem position listed inSlot using owned
  let owner : { id // id ∈ ids } → GigPeriodTable := fun id => table id.1 id.2
  have inj : Function.Injective owner := by
    rintro ⟨a, ha⟩ ⟨b, hb⟩ same
    have same : table a ha = table b hb := same
    have slot := inSlot b hb
    have node := listed b hb
    rw [← same] at slot node
    have node' := listed a ha
    rw [(inSlot a ha).unique slot, node] at node'
    exact Subtype.ext (Option.some.inj node').symm
  have sub : ids.attach.map owner ⊆ history := by
    intro v hv
    obtain ⟨id, -, rfl⟩ := List.mem_map.1 hv
    exact mem id.1 id.2
  have small := ((List.nodup_attach.2 distinct).map inj).subperm sub
  simpa using small.length_le

/-! ## Admission by the history -/

/-- At most one node for each table of the history is admitted. -/
def OnePerTable (t : GigPeriodTable) (history : List GigPeriodTable) (round : UInt64)
    (time : Int64) : Prop :=
  ∀ ids : List GoString, ids.Nodup → (∀ id ∈ ids, t.wasHisTurn history round id time = true) →
    ids.length ≤ history.length

/-- The second, counted from the activation of the table. -/
def age (v : GigPeriodTable) (time : Int64) : ℤ := time.toInt - v.activeTime.toNat

/-- The activation and the seconds after it are dates of the Go type `int64`. -/
def Dated (v : GigPeriodTable) : Prop := v.activeTime.toNat + smallPeriodInterval.toNat < 2 ^ 63

/-- The delegate at position `i` owns the second `d` and is admitted in it, or neither. -/
def Placed (i : ℕ) (d : ℤ) : Prop :=
  d < 0 ∨ i = 0 ∧ d ≠ 5 ∨ i = 1 ∧ (d = 5 ∨ 10 ≤ d) ∨
    2 ≤ i ∧ 5 < d ∧ (d < 5 * i ∨ 5 * i + 5 ≤ d)

instance (i : ℕ) (d : ℤ) : Decidable (Placed i d) :=
  inferInstanceAs (Decidable (_ ∨ _ ∨ _ ∨ _))

/-- The time is placed in every table of the history. -/
def AllPlaced (history : List GigPeriodTable) (id : GoString) (time : Int64) : Prop :=
  ∀ v ∈ history, ∀ i, v.delegatedNodes[i]? = some id → Placed i (v.age time)

theorem Dated.opens_iff {v : GigPeriodTable} (dated : v.Dated) :
    v.Opens time ↔ 0 ≤ v.age time ∧ v.age time ≤ 5 := by
  unfold Dated at dated
  have interval : smallPeriodInterval.toNat = 5 := rfl
  have start : v.activeTime.toInt64.toInt = v.activeTime.toNat := Word.toInt_toInt64 (by omega)
  have five : (smallPeriodInterval.toUInt64.toInt64).toInt = 5 := rfl
  unfold Opens age
  rw [Int64.le_iff_toInt_le, Int64.le_iff_toInt_le, Int64.toInt_add, start, five, Int.bmod_eq_of_le]
  all_goals omega

theorem Dated.placed_iff {v : GigPeriodTable} (dated : v.Dated) (i : ℕ) :
    Placed i (v.age time) ↔ (v.Opens time ↔ v.InSlot i time) := by
  rw [dated.opens_iff]
  unfold Placed InSlot age
  have interval : smallPeriodInterval.toNat = 5 := rfl
  rw [interval]
  push_cast
  omega

theorem wasHisTurn_iff_owned {t : GigPeriodTable} {history : List GigPeriodTable} {id : GoString}
    (outside : ¬ t.Covers time) (dated : ∀ v ∈ history, v.Dated) (placed : AllPlaced history id time)
    (round : UInt64) : t.wasHisTurn history round id time = true ↔ Owned history id time := by
  rw [wasHisTurn_iff_opens outside]
  constructor
  · rintro ⟨v, hv, listed, opens⟩
    obtain ⟨i, hi⟩ := List.mem_iff_getElem?.1 listed
    exact ⟨v, hv, i, hi, ((dated v hv).placed_iff i).1 (placed v hv i hi) |>.1 opens⟩
  · rintro ⟨v, hv, i, hi, inSlot⟩
    exact ⟨v, hv, List.mem_of_getElem? hi,
      ((dated v hv).placed_iff i).1 (placed v hv i hi) |>.2 inSlot⟩

/-- With a single table the condition is also necessary. -/
theorem allPlaced_of_single {t v : GigPeriodTable} {id : GoString} (outside : ¬ t.Covers time)
    (dated : v.Dated) (distinct : v.delegatedNodes.Nodup) {round : UInt64}
    (turn : t.wasHisTurn [v] round id time = true ↔ Owned [v] id time) : AllPlaced [v] id time := by
  rw [wasHisTurn_iff_opens outside] at turn
  intro w hw i hi
  obtain rfl := List.mem_singleton.1 hw
  refine (dated.placed_iff i).2 ⟨fun opens => ?_, fun inSlot => ?_⟩
  · obtain ⟨w', hw', j, hj, inSlot⟩ := turn.1 ⟨w, hw, List.mem_of_getElem? hi, opens⟩
    obtain rfl := List.mem_singleton.1 hw'
    obtain ⟨lt, -⟩ := List.getElem?_eq_some_iff.1 hi
    rwa [(List.getElem?_inj lt distinct).1 (hi.trans hj.symm)]
  · obtain ⟨w', hw', -, opens⟩ := turn.2 ⟨w, hw, i, hi, inSlot⟩
    rwa [← List.mem_singleton.1 hw']

/-- `wasHisTurn` admits the owner of the second, and one node for each table, if the first six
seconds of the table and the delegates' own slots agree about the time. -/
theorem late_turn_iff (t : GigPeriodTable) (history : List GigPeriodTable) (round : UInt64)
    (time : Int64) (outside : ¬ t.Covers time) (dated : ∀ v ∈ history, v.Dated) :
    (∀ id, AllPlaced history id time →
      (t.wasHisTurn history round id time = true ↔ Owned history id time)) ∧
    (∀ v id, history = [v] → v.delegatedNodes.Nodup →
      (t.wasHisTurn history round id time = true ↔ Owned history id time) →
        AllPlaced history id time) ∧
    ((∀ id, AllPlaced history id time) → t.OnePerTable history round time) := by
  have turn (id : GoString) (placed : AllPlaced history id time) :
      t.wasHisTurn history round id time = true ↔ Owned history id time :=
    wasHisTurn_iff_owned outside dated placed round
  refine ⟨turn, ?_, fun placed ids distinct admitted => ?_⟩
  · rintro v id rfl distinct exact_turn
    exact allPlaced_of_single outside (dated v (List.mem_singleton_self v)) distinct exact_turn
  · exact length_le_of_owned distinct fun id hid => (turn id (placed id)).1 (admitted id hid)

/-- A table with two delegates. -/
def twoDelegates : GigPeriodTable := .looking 1 [[65], [66]] 0 1000

/-- The table after it. -/
def afterwards : GigPeriodTable := .looking 2 [[65], [66]] 0 1200

theorem afterwards_covers (time : Int64) (h : time < 1200) : ¬ afterwards.Covers time := by
  rintro ⟨i, hi, start, -⟩
  have hi : i < 2 := hi
  have late : (1200 : Int64) ≤ afterwards.beatStartTime i := by
    interval_cases i <;> decide
  have := Int64.le_trans late start
  exact absurd (Int64.lt_of_le_of_lt this h) (Int64.lt_irrefl)

/-- The table before it. -/
def before : GigPeriodTable := .looking 0 [[66], [65]] 0 800

/-- The first delegate of the one table is the second of the other. -/
theorem late_turn_first : afterwards.wasHisTurn [before, twoDelegates] 1 [65] 1001 = true ↔
    Owned [before, twoDelegates] [65] 1001 := by
  refine (late_turn_iff afterwards [before, twoDelegates] 1 1001
    (afterwards_covers 1001 (by decide)) (show ∀ v ∈ _, _ + _ < _ by decide)).1 [65] ?_
  intro v hv i listed
  have bound : i < 2 := by
    rcases List.mem_pair.1 hv with rfl | rfl <;> exact (List.getElem?_eq_some_iff.1 listed).1
  rcases List.mem_pair.1 hv with rfl | rfl
  all_goals
    interval_cases i
    all_goals first | exact absurd listed (by decide) | decide

theorem second_delegate_admitted :
    ¬ ∀ (t : GigPeriodTable) (history : List GigPeriodTable) (round : UInt64) (id : GoString)
      (time : Int64), (∀ v ∈ history, v.delegatedNodes.Nodup) → ¬ t.Covers time →
      (t.wasHisTurn history round id time = true ↔ Owned history id time) := by
  intro h
  have turn := (h afterwards [twoDelegates] 1 [66] 1001 (by decide)
    (afterwards_covers 1001 (by decide))).1 (by decide)
  obtain ⟨v, hv, i, listed, start, -⟩ := turn
  obtain rfl := List.mem_singleton.1 hv
  have hi : i < 2 := (List.getElem?_eq_some_iff.1 listed).1
  interval_cases i
  · exact absurd listed (by decide)
  · exact absurd start (by decide)

end GigPeriodTable

end JuChain.Protocol
