import JuChain.Core.Records

/-!
# Rewinding the chain

`HeaderChain.SetHead`, `BlockChain.SetHead`, `loadLastState` and `Rollback`.  Whether a body decodes
and whether the state of a root can be opened are functions of the chain state.

Number-to-hash entries above the current header stay, and so do block heads on another branch that
are not above the rewound header (`setHead_rewound_iff`).
-/

namespace JuChain

open BigEndian Slices UInt64 Option

namespace Records

def deleteHeader (db : Records) (hash : Hash) (number : UInt64) : Records :=
  { db with number := Function.update db.number hash none,
            header := Function.update db.header (number, hash) none }

def deleteBody (db : Records) (hash : Hash) (number : UInt64) : Records :=
  { db with body := Function.update db.body (number, hash) none }

def deleteCanonicalHash (db : Records) (number : UInt64) : Records :=
  { db with canonical := Function.update db.canonical number none }

/-- The loop of `HeaderChain.SetHead`, which ends with nil where a parent is missing. -/
def rewind (head : UInt64) : ℕ → Records → Option Stored → Records × Option Stored
  | i + 1, db, some x =>
    if head < x.numberU64 then
      let db := (db.deleteBody x.hash x.numberU64).deleteHeader x.hash x.numberU64
      rewind head i db (db.getHeader x.parentHash (x.numberU64 - 1))
    else (db, some x)
  | _, db, current => (db, current)

/-- The loop over the canonical numbers: `for i := height; i > head; i--`. -/
def unnumber (head : UInt64) : ℕ → Records → Records
  | 0, db => db
  | i + 1, db =>
    if head.toNat < i + 1 then unnumber head i (db.deleteCanonicalHash (ofNat (i + 1))) else db

end Records

/-- The records and the heads in memory. -/
structure ChainState where
  db : Records
  genesis : Stored
  currentHeader : Stored
  currentBlock : Stored
  currentFastBlock : Stored
  hasState : Hash → Bool
  decodes : Bytes → Bool

/-- Why a call does not return: a crash, or `Reset` waiting for the lock that `SetHead` holds. -/
inductive Stop where
  | locked
  deriving DecidableEq

namespace ChainState

variable (c : ChainState)

/-- `HeaderChain.SetHead`; the number of the current header bounds the loop. -/
def setHeadHeader (head : UInt64) : ChainState :=
  let height := c.currentHeader.numberU64
  let (db, current) := c.db.rewind head height.toNat (some c.currentHeader)
  let current := current.getD c.genesis
  { c with db := { db.unnumber head height.toNat with headHeader := some current.hash },
           currentHeader := current }

def getBlock (hash : Hash) (number : UInt64) : Option Stored := do
  let header ← c.db.getHeader hash number
  let body ← c.db.body (number, hash)
  if body ≠ [] ∧ c.decodes body then some header else none

def getBlockByHash (hash : Hash) : Except (Fault Stop) (Option Stored) :=
  (c.db.chainBlockNumber hash).map (c.getBlock hash)

/-- `repair`: go back to a block with state.  A missing block is dereferenced. -/
def repair (c : ChainState) : ℕ → Stored → Except (Fault Stop) Stored
  | i, block =>
    if c.hasState block.root then .ok block
    else
      match i with
      | 0 => .error .panic
      | i + 1 =>
        match c.getBlock block.parentHash (block.numberU64 - 1) with
        | none => .error .panic
        | some parent => c.repair i parent

def loadLastState : Except (Fault Stop) ChainState := do
  let head := c.db.headBlock.getD 0
  if head = 0 then .error (.err .locked)
  else
    match ← c.getBlockByHash head with
    | none => .error (.err .locked)
    | some block => do
      let block ← c.repair (block.number + 1) block
      let header ← if c.db.headHeader.getD 0 = 0 then .ok none
        else c.db.getHeaderByHash (c.db.headHeader.getD 0)
      let fast ← if c.db.headFast.getD 0 = 0 then .ok none else c.getBlockByHash (c.db.headFast.getD 0)
      .ok { c with
        db := { c.db with headHeader := some (header.getD block).hash }
        currentBlock := block
        currentHeader := header.getD block
        currentFastBlock := fast.getD block }

/-- A block above the header is replaced by the one there. -/
def lower (block : Stored) : Option Stored :=
  if c.currentHeader.numberU64 <
    block.numberU64 then c.getBlock c.currentHeader.hash c.currentHeader.numberU64
  else some block

/-- The current block afterwards: genesis when there is no block or no state. -/
def lowerBlock : Stored :=
  ((c.lower c.currentBlock).filter fun block => c.hasState block.root).getD c.genesis

/-- The fast block that `SetHead` sets. -/
def lowerFast : Stored := (c.lower c.currentFastBlock).getD c.genesis

def setHead (head : UInt64) : Except (Fault Stop) ChainState :=
  let c := c.setHeadHeader head
  loadLastState { c with
    db := { c.db with headBlock := some c.lowerBlock.hash, headFast := some c.lowerFast.hash }
    currentBlock := c.lowerBlock
    currentFastBlock := c.lowerFast }

/-- The loop body of `Rollback`: a head with the hash goes to its parent. -/
def rollbackOne (hash : Hash) : Except (Fault Stop) ChainState := do
  let c ← if c.currentHeader.hash = hash then
      match c.db.getHeader c.currentHeader.parentHash (c.currentHeader.numberU64 - 1) with
      | none => .error .panic
      | some x => .ok { c with db := { c.db with headHeader := some x.hash }, currentHeader := x }
    else .ok c
  let c ← if c.currentFastBlock.hash = hash then
      match c.getBlock c.currentFastBlock.parentHash (c.currentFastBlock.numberU64 - 1) with
      | none => .error .panic
      | some x => .ok { c with db := { c.db with headFast := some x.hash }, currentFastBlock := x }
    else .ok c
  if c.currentBlock.hash = hash then
    match c.getBlock c.currentBlock.parentHash (c.currentBlock.numberU64 - 1) with
    | none => .error .panic
    | some x => .ok { c with db := { c.db with headBlock := some x.hash }, currentBlock := x }
  else .ok c

def rollback (chain : List Hash) : Except (Fault Stop) ChainState := chain.reverse.foldlM rollbackOne c

end ChainState

/-! ## What a rewind keeps -/

namespace Records

/-- The `k`-th ancestor. -/
def ancestor (db : Records) : ℕ → Stored → Option Stored
  | 0, x => some x
  | k + 1, x => (db.getHeader x.parentHash (x.numberU64 - 1)).bind (db.ancestor k)

/-- What lies at or below the head is kept. -/
structure Kept (head : UInt64) (db db' : Records) : Prop where
  header : ∀ {n h}, n ≤ head → db'.header (n, h) = db.header (n, h)
  body : ∀ {n h}, n ≤ head → db'.body (n, h) = db.body (n, h)
  number : ∀ {n h x}, n ≤ head → db.header (n, h) = some x → db'.number h = db.number h

section Rewind

variable {db cur : Records} {head n : UInt64} {h : Hash} {x y : Stored}

theorem key_ne {m n : UInt64} (h h' : Hash) (ne : m.toNat ≠ n.toNat) : (m, h) ≠ (n, h') :=
  fun eq => ne (congrArg toNat (Prod.mk.inj eq).1)

theorem Kept.refl (head : UInt64) (db : Records) : Kept head db db :=
  ⟨fun _ => rfl, fun _ => rfl, fun _ _ => rfl⟩

theorem ancestor_stored (filed : db.Filed) {k : ℕ} (hx : db.header (n, x.hash) = some x)
    (le : k ≤ n.toNat)
    (hy : db.ancestor k x = some y) : ∃ m, m.toNat = n.toNat - k ∧ db.header (m, y.hash) = some y := by
  induction k generalizing n x with
  | zero =>
    cases hy
    exact ⟨n, rfl, hx⟩
  | succ k ih =>
    have ne : n ≠ 0 := by
      rintro rfl
      exact absurd le (by simp)
    have pred := toNat_pred ne
    obtain ⟨p, hp, hy⟩ := bind_eq_some_iff.1 hy
    rw [getHeader, filed.numberU64_eq hx] at hp
    have same := (filed.filed hp).1
    obtain ⟨m, hm, hy⟩ := ih (same ▸ hp) (by omega) hy
    exact ⟨m, by omega, hy⟩

theorem Kept.delete (filed : db.Filed) (kept : Kept head db cur)
    (hx : db.header (n, x.hash) = some x) (above : head < n) :
    Kept head db ((cur.deleteBody x.hash n).deleteHeader x.hash n) where
  header {m h} le := by
    have lt := UInt64.lt_iff_toNat_lt.1 (UInt64.lt_of_le_of_lt le above)
    exact (Function.update_of_ne (key_ne h x.hash lt.ne) _ _).trans (kept.header le)
  body {m h} le := by
    have lt := UInt64.lt_iff_toNat_lt.1 (UInt64.lt_of_le_of_lt le above)
    exact (Function.update_of_ne (key_ne h x.hash lt.ne) _ _).trans (kept.body le)
  number {m h y} le hy := by
    -- a hash has one number, so the hash that is deleted is another one
    have ne : h ≠ x.hash := by
      rintro rfl
      have same := some.inj ((filed.numbered hx).symm.trans (filed.numbered hy))
      have eq : n.toNat = m.toNat := fixed_injOn n.toNat_lt m.toNat_lt same
      rw [UInt64.toNat_inj.1 eq] at above
      exact UInt64.lt_irrefl head (UInt64.lt_of_lt_of_le above le)
    exact (Function.update_of_ne ne _ _).trans (kept.number le hy)

theorem canonical_rewind (head : UInt64) (i : ℕ) (db : Records) (current : Option Stored) :
    (db.rewind head i current).1.canonical = db.canonical := by
  fun_induction rewind with
  | case1 i db x above db' ih => exact ih
  | case2 | case3 => rfl

theorem rewind_eq (filed : db.Filed) {i : ℕ} (hi : n.toNat = i) (hx : db.header (n, x.hash) = some x)
    (lined : ∀ k ≤ i, (db.ancestor k x).isSome) (kept : Kept head db cur)
    (agree : ∀ m h, m.toNat ≤ i → cur.header (m, h) = db.header (m, h)) :
    ∃ db' y, cur.rewind head i (some x) = (db', some y) ∧ Kept head db db' ∧
      db.ancestor (i - head.toNat) x = some y := by
  induction i generalizing n x cur with
  | zero => exact ⟨cur, x, rfl, kept, by rw [Nat.zero_sub]; rfl⟩
  | succ i ih =>
    have number := filed.numberU64_eq hx
    rw [rewind, number]
    by_cases above : head < n
    · have ne : n ≠ 0 := by
        rintro rfl
        rw [UInt64.toNat_zero] at hi
        omega
      have pred := toNat_pred ne
      have lt := lt_iff_toNat_lt.1 above
      obtain ⟨p, hp⟩ : ∃ p, db.header (n - 1, x.parentHash) = some p := by
        have one := lined 1 (by omega)
        rw [ancestor, getHeader, number] at one
        exact isSome_iff_exists.1 (isSome_of_isSome_bind one)
      have same := (filed.filed hp).1
      have parent : ((cur.deleteBody x.hash n).deleteHeader x.hash n).getHeader x.parentHash
          (n - 1) = some p := by
        have other := key_ne x.parentHash x.hash (by omega : (n - 1).toNat ≠ n.toNat)
        exact (Function.update_of_ne other _ _).trans ((agree _ _ (by omega)).trans hp)
      have below (k : ℕ) : db.ancestor (k + 1) x = db.ancestor k p := by
        rw [ancestor, getHeader, number, hp, bind_some]
      simp only [if_pos above, parent]
      obtain ⟨db', y, eq, kept', hy⟩ :=
        ih (by omega) (same ▸ hp) (fun k hk => below k ▸ lined (k + 1) (by omega))
        (kept.delete filed hx above) fun m h le =>
          (Function.update_of_ne (key_ne h x.hash (by omega)) _ _).trans (agree m h (by omega))
      refine ⟨db', y, eq, kept', ?_⟩
      rw [show i + 1 - head.toNat = i - head.toNat + 1 by omega, below, hy]
    · rw [if_neg above]
      have le := UInt64.le_iff_toNat_le.1 (UInt64.not_lt.1 above)
      exact ⟨cur, x, rfl, kept, by rw [Nat.sub_eq_zero_of_le (by omega)]; rfl⟩

theorem unnumber_eq (db : Records) {i : ℕ} (small : i < 2 ^ 64) :
    db.unnumber head i = { db with
      canonical := fun m => if head < m ∧ m.toNat ≤ i then none else db.canonical m } := by
  induction i generalizing db with
  | zero =>
    have none (m : UInt64) : ¬ (head < m ∧ m.toNat ≤ 0) := by
      rw [lt_iff_toNat_lt]
      omega
    simp only [unnumber, if_neg (none _)]
  | succ i ih =>
    have last : (ofNat (i + 1)).toNat = i + 1 := by rw [toNat_ofNat', Nat.mod_eq_of_lt small]
    rw [unnumber]
    split_ifs with more
    · rw [ih _ (by omega)]
      simp only [deleteCanonicalHash, Records.mk.injEq, true_and, and_true]
      funext m
      by_cases eq : m = ofNat (i + 1)
      · subst eq
        rw [Function.update_self, ite_self, if_pos ⟨lt_iff_toNat_lt.2 (by omega), by omega⟩]
      · have ne : m.toNat ≠ i + 1 := fun h => eq (UInt64.toNat_inj.1 (h.trans last.symm))
        rw [Function.update_of_ne eq]
        exact if_congr (and_congr_right fun _ => by omega) rfl rfl
    · have none (m : UInt64) : ¬ (head < m ∧ m.toNat ≤ i + 1) := by
        rw [lt_iff_toNat_lt]
        omega
      simp only [if_neg (none _)]

end Rewind

end Records

namespace ChainState

/-- The genesis block is stored, canonical and has its state, the block heads are stored, and so are
the current header and its ancestors. -/
structure Sound (c : ChainState) : Prop where
  filed : c.db.Filed
  genesis_number : c.genesis.number = 0
  genesis_stored : c.getBlock c.genesis.hash 0 = some c.genesis
  genesis_canonical : c.db.canonical 0 = some c.genesis.hash
  genesis_state : c.hasState c.genesis.root = true
  header_stored : c.db.header (c.currentHeader.numberU64, c.currentHeader.hash) = some c.currentHeader
  header_lined : ∀ k ≤ c.currentHeader.numberU64.toNat, (c.db.ancestor k c.currentHeader).isSome
  block_stored : c.getBlock c.currentBlock.hash c.currentBlock.numberU64 = some c.currentBlock
  fast_stored : c.getBlock c.currentFastBlock.hash c.currentFastBlock.numberU64 =
    some c.currentFastBlock

/-- The number of the header leads to it. -/
def OnChain (c : ChainState) (x : Stored) : Prop := c.db.canonical x.numberU64 = some x.hash

/-- The state that `SetHead(n)` should leave. -/
structure Rewound (c : ChainState) (head : UInt64) : Prop where
  header_le : c.currentHeader.numberU64 ≤ head
  fast_le : c.currentFastBlock.numberU64 ≤ head
  block_le : c.currentBlock.numberU64 ≤ head
  unnumbered : ∀ n, head < n → c.db.canonical n = none
  header_onChain : c.OnChain c.currentHeader
  fast_onChain : c.OnChain c.currentFastBlock
  block_onChain : c.OnChain c.currentBlock
  block_state : c.hasState c.currentBlock.root = true

/-- No number above both the target and the current header has an entry, its branch is canonical
where it is cut, and so is every block head that stays. -/
structure Rewindable (c : ChainState) (head : UInt64) : Prop where
  unnumbered : ∀ n, head < n → c.currentHeader.numberU64 < n → c.db.canonical n = none
  header : ∀ x, c.db.ancestor (c.currentHeader.numberU64.toNat - head.toNat) c.currentHeader =
    some x → c.OnChain x
  fast : c.currentFastBlock.numberU64 ≤ c.currentHeader.numberU64 → c.currentFastBlock.numberU64 ≤
    head → c.OnChain c.currentFastBlock
  block : c.currentBlock.numberU64 ≤ c.currentHeader.numberU64 → c.currentBlock.numberU64 ≤ head →
    c.hasState c.currentBlock.root = true → c.OnChain c.currentBlock

section SetHead

variable {c : ChainState} {head n : UInt64} {h : Hash} {x y : Stored}

theorem getBlock_eq_some (hx : c.getBlock h n = some x) : c.db.header (n, h) = some x := by
  obtain ⟨y, hy, hx⟩ := bind_eq_some_iff.1 hx
  obtain ⟨body, -, hx⟩ := bind_eq_some_iff.1 hx
  split_ifs at hx
  exact hx ▸ hy

theorem setHeadHeader_eq (sound : c.Sound) (head : UInt64) :
    ∃ db y, c.setHeadHeader head = { c with db := db, currentHeader := y } ∧ Records.Kept head c.db db ∧
      db.headHeader = some y.hash ∧ c.db.header (y.numberU64, y.hash) = some y ∧
      c.db.ancestor (c.currentHeader.numberU64.toNat - head.toNat) c.currentHeader = some y ∧
      y.numberU64.toNat = min c.currentHeader.numberU64.toNat head.toNat ∧
      ∀ m, db.canonical m = if head < m ∧ m ≤ c.currentHeader.numberU64 then none
        else c.db.canonical m := by
  obtain ⟨db, y, eq, kept, hy⟩ := Records.rewind_eq sound.filed rfl sound.header_stored
    sound.header_lined (.refl head c.db) fun _ _ _ => rfl
  have canonical : db.canonical = c.db.canonical := by
    have same :=
      Records.canonical_rewind head c.currentHeader.numberU64.toNat c.db (some c.currentHeader)
    rwa [eq] at same
  obtain ⟨m, hm, stored⟩ := Records.ancestor_stored sound.filed sound.header_stored (Nat.sub_le _ _) hy
  have number := sound.filed.numberU64_eq stored
  let numbered : Records :=
    { db with
      canonical := fun m => if head < m ∧ m.toNat ≤ c.currentHeader.numberU64.toNat then none
        else db.canonical m
      headHeader := some y.hash }
  refine ⟨numbered, y, ?_, ⟨kept.header, kept.body, kept.number⟩, rfl, by rw [number, stored], hy,
    by rw [number, hm]; omega, ?_⟩
  · simp only [setHeadHeader, eq, Records.unnumber_eq db (toNat_lt _), getD_some, numbered]
  · intro m
    simp only [numbered, canonical, le_iff_toNat_le]

/-- The block is found by its hash. -/
structure Findable (c : ChainState) (x : Stored) : Prop where
  hash_ne : x.hash ≠ 0
  number : c.db.number x.hash = some (fixed 8 x.numberU64.toNat)
  stored : c.getBlock x.hash x.numberU64 = some x

theorem Findable.getBlockByHash (found : c.Findable x) : c.getBlockByHash x.hash = .ok (some x) := by
  rw [ChainState.getBlockByHash, Records.chainBlockNumber_of_record found.number]
  exact congrArg Except.ok found.stored

theorem loadLastState_eq (block : c.Findable c.currentBlock) (fast : c.Findable c.currentFastBlock)
    (hash_ne : c.currentHeader.hash ≠ 0)
    (header : (c.db.getHeaderByHash c.currentHeader.hash : Except (Fault Stop) (Option Stored)) =
      .ok (some c.currentHeader))
    (state : c.hasState c.currentBlock.root = true)
    (headBlock : c.db.headBlock = some c.currentBlock.hash)
    (headHeader : c.db.headHeader = some c.currentHeader.hash)
    (headFast : c.db.headFast = some c.currentFastBlock.hash) :
    c.loadLastState = .ok c := by
  have repaired : c.repair (c.currentBlock.number + 1) c.currentBlock = .ok c.currentBlock := by
    rw [repair, if_pos state]
  unfold loadLastState
  simp only [headBlock, headHeader, headFast, getD_some, if_neg block.hash_ne, if_neg hash_ne,
    if_neg fast.hash_ne, block.getBlockByHash, fast.getBlockByHash, header, repaired, ok_bind]
  rw [← headHeader, ← headBlock, ← headFast]

end SetHead

/-! ## The heads afterwards -/

section Heads

variable {c : ChainState} {head : UInt64} {db db' : Records} {b y z : Stored}

theorem getBlock_kept (kept : Records.Kept head c.db db') {h : Hash} {n : UInt64} (le : n ≤ head)
    (x y z : Stored) :
    ({ c with db := db', currentHeader := x, currentBlock := y, currentFastBlock := z } :
      ChainState).getBlock h n = c.getBlock h n := by
  simp only [getBlock, Records.getHeader, kept.header le, kept.body le]

theorem findable_kept (filed : c.db.Filed) (kept : Records.Kept head c.db db')
    (stored : c.getBlock z.hash z.numberU64 = some z) (le : z.numberU64 ≤ head) (x y w : Stored) :
    ({ c with db := db', currentHeader := x, currentBlock := y, currentFastBlock := w } :
      ChainState).Findable z where
  hash_ne := (filed.filed (getBlock_eq_some stored)).2.2
  number := (kept.number le (getBlock_eq_some stored)).trans (filed.numbered (getBlock_eq_some stored))
  stored := (getBlock_kept kept le x y w).trans stored

/-- The block, or the one at the header if it is above. -/
def lowered (c : ChainState) (y b : Stored) : Option Stored :=
  if y.numberU64 < b.numberU64 then c.getBlock y.hash y.numberU64 else some b

theorem lower_eq (kept : Records.Kept head c.db db) (le : y.numberU64 ≤ head) (b : Stored) :
    ({ c with db := db, currentHeader := y } : ChainState).lower b = c.lowered y b := by
  rw [lower, lowered]
  split_ifs
  · exact getBlock_kept kept le _ _ _
  · rfl

theorem lower_cases (stored : c.getBlock b.hash b.numberU64 = some b)
    (hy : c.db.header (y.numberU64, y.hash) = some y) (low : c.lowered y b = some z) :
    c.getBlock z.hash z.numberU64 = some z ∧ z.numberU64 ≤ y.numberU64 ∧
      (z = y ∨ z = b ∧ b.numberU64 ≤ y.numberU64) := by
  unfold lowered at low
  split_ifs at low with above
  · have same : z = y := some.inj ((getBlock_eq_some low).symm.trans hy)
    subst same
    exact ⟨low, UInt64.le_refl _, .inl rfl⟩
  · cases low
    exact ⟨stored, UInt64.not_lt.1 above, .inr ⟨rfl, UInt64.not_lt.1 above⟩⟩

/-- The lowered block if it may stay, or the genesis block. -/
def settled (c : ChainState) (y b : Stored) (keep : Stored → Bool) : Stored :=
  ((c.lowered y b).filter keep).getD c.genesis

theorem settled_cases (sound : c.Sound) (stored : c.getBlock b.hash b.numberU64 = some b)
    (hy : c.db.header (y.numberU64, y.hash) = some y) {keep : Stored → Bool}
    (hz : c.settled y b keep = z) :
    c.getBlock z.hash z.numberU64 = some z ∧ z.numberU64 ≤ y.numberU64 ∧
      (z = c.genesis ∨ keep z ∧ (z = y ∨ z = b ∧ b.numberU64 ≤ y.numberU64)) := by
  have zero : c.genesis.numberU64 = 0 := by rw [Stored.numberU64, sound.genesis_number]; rfl
  unfold settled at hz
  cases low : (c.lowered y b).filter keep with
  | none =>
    rw [low] at hz
    cases hz
    rw [getD_none, zero]
    exact ⟨sound.genesis_stored, UInt64.zero_le, .inl rfl⟩
  | some w =>
    rw [low] at hz
    cases hz
    obtain ⟨low, kept⟩ := filter_eq_some_iff.1 low
    obtain ⟨stored, le, which⟩ := lower_cases stored hy low
    exact ⟨stored, le, .inr ⟨kept, which⟩⟩

theorem settled_of_le (le : b.numberU64 ≤ y.numberU64) {keep : Stored → Bool} (kept : keep b = true)
    (c : ChainState) : c.settled y b keep = b := by
  rw [settled, lowered, if_neg (UInt64.not_lt.2 le), Option.filter_some_pos kept, Option.getD_some]

theorem setHead_eq (sound : c.Sound) (head : UInt64) : ∃ db y, c.setHead head = .ok { c with
        db := db, currentHeader := y
        currentBlock := c.settled y c.currentBlock fun b => c.hasState b.root
        currentFastBlock := c.settled y c.currentFastBlock fun _ => true } ∧
      c.db.header (y.numberU64, y.hash) = some y ∧
      c.db.ancestor (c.currentHeader.numberU64.toNat - head.toNat) c.currentHeader = some y ∧
      y.numberU64.toNat = min c.currentHeader.numberU64.toNat head.toNat ∧
      ∀ m, db.canonical m = if head < m ∧ m ≤ c.currentHeader.numberU64 then none
        else c.db.canonical m := by
  obtain ⟨db, y, eq, kept, written, hy, anc, number, canonical⟩ := setHeadHeader_eq sound head
  have le : y.numberU64 ≤ head := le_iff_toNat_le.2 (by omega)
  have block : (c.setHeadHeader head).lowerBlock = c.settled y c.currentBlock fun b =>
      c.hasState b.root := by
    rw [eq, lowerBlock, lower_eq kept le]
    rfl
  have fast : (c.setHeadHeader head).lowerFast = c.settled y c.currentFastBlock fun _ => true := by
    have all (o : Option Stored) : o.filter (fun _ => true) = o := by cases o <;> rfl
    rw [eq, lowerFast, lower_eq kept le, settled, all]
  obtain ⟨bstored, ble, which⟩ := settled_cases sound sound.block_stored hy
    (rfl : c.settled y c.currentBlock (fun b => c.hasState b.root) = _)
  obtain ⟨fstored, fle, -⟩ := settled_cases sound sound.fast_stored hy
    (rfl : c.settled y c.currentFastBlock (fun _ => true) = _)
  have state : c.hasState (c.settled y c.currentBlock fun b => c.hasState b.root).root = true := by
    rcases which with genesis | ⟨state, -⟩
    · rw [genesis]
      exact sound.genesis_state
    · exact state
  let final : Records := { db with
    headBlock := some (c.settled y c.currentBlock fun b => c.hasState b.root).hash
    headFast := some (c.settled y c.currentFastBlock fun _ => true).hash }
  have kept' : Records.Kept head c.db final := ⟨kept.header, kept.body, kept.number⟩
  refine ⟨final, y, ?_, hy, anc, number, canonical⟩
  rw [setHead, block, fast, eq]
  refine loadLastState_eq (findable_kept sound.filed kept' bstored (UInt64.le_trans ble le) _ _ _)
    (findable_kept sound.filed kept' fstored (UInt64.le_trans fle le) _ _ _)
      (sound.filed.filed hy).2.2 ?_ state rfl written rfl
  have record : final.number y.hash = some (fixed 8 y.numberU64.toNat) :=
    (kept'.number le hy).trans (sound.filed.numbered hy)
  have there : final.getHeader y.hash y.numberU64 = some y := (kept'.header le).trans hy
  rw [Records.getHeaderByHash, Records.chainBlockNumber_of_record record]
  exact congrArg Except.ok there

/-- `SetHead` returns, and the rewind is complete if and only if the state was rewindable to the
target. -/
theorem setHead_rewound_iff (sound : c.Sound) (head : UInt64) :
    ∃ c', c.setHead head = .ok c' ∧ (c'.Rewound head ↔ c.Rewindable head) := by
  obtain ⟨db, y, eq, hy, anc, number, canonical⟩ := setHead_eq sound head
  obtain ⟨-, ble, bwhich⟩ := settled_cases sound sound.block_stored hy
    (rfl : c.settled y c.currentBlock (fun b => c.hasState b.root) = _)
  obtain ⟨-, fle, fwhich⟩ := settled_cases sound sound.fast_stored hy
    (rfl : c.settled y c.currentFastBlock (fun _ => true) = _)
  have le : y.numberU64 ≤ head := le_iff_toNat_le.2 (by omega)
  -- nothing changes for numbers that are not above the target
  have same {x : Stored} (hx : x.numberU64 ≤ y.numberU64) :
      db.canonical x.numberU64 = some x.hash ↔ c.OnChain x := by
    rw [canonical, if_neg fun h => UInt64.not_lt.2 (UInt64.le_trans hx le) h.1]
    rfl
  have below {n : UInt64} (h : n ≤ c.currentHeader.numberU64) (h' : n ≤ head) : n ≤ y.numberU64 := by
    rw [le_iff_toNat_le] at h h' ⊢
    omega
  have parts {n : UInt64} (h : n ≤ y.numberU64) : n ≤ c.currentHeader.numberU64 ∧ n ≤ head := by
    simp only [le_iff_toNat_le] at h ⊢
    omega
  have genesis : c.OnChain c.genesis := by
    rw [OnChain, Stored.numberU64, sound.genesis_number]
    exact sound.genesis_canonical
  refine ⟨_, eq, fun rewound => ⟨?_, ?_, ?_, ?_⟩,
    fun able => ⟨le, UInt64.le_trans fle le, UInt64.le_trans ble le, ?_, ?_, ?_, ?_, ?_⟩⟩
  · intro n above higher
    have none := rewound.unnumbered n above
    rwa [canonical, if_neg fun h => UInt64.not_lt.2 h.2 higher] at none
  · intro x hx
    cases hx.symm.trans anc
    exact (same (UInt64.le_refl _)).1 rewound.header_onChain
  · intro h h'
    have on := (same fle).1 rewound.fast_onChain
    rwa [settled_of_le (below h h') rfl] at on
  · intro h h' state
    have on := (same ble).1 rewound.block_onChain
    rwa [settled_of_le (below h h') state] at on
  · intro n above
    rw [canonical]
    split_ifs with entry
    · rfl
    · exact able.unnumbered n above (UInt64.not_le.1 fun h => entry ⟨above, h⟩)
  · exact (same (UInt64.le_refl _)).2 (able.header y anc)
  · refine (same fle).2 ?_
    rcases fwhich with eq | ⟨-, eq | ⟨eq, le'⟩⟩ <;> rw [eq]
    · exact genesis
    · exact able.header y anc
    · exact able.fast (parts le').1 (parts le').2
  · refine (same ble).2 ?_
    rcases bwhich with eq | ⟨state, eq | ⟨eq, le'⟩⟩
    · exact eq ▸ genesis
    · rw [eq]
      exact able.header y anc
    · rw [eq] at state ⊢
      exact able.block (parts le').1 (parts le').2 state
  · rcases bwhich with eq | ⟨state, -⟩
    · exact eq ▸ sound.genesis_state
    · exact state

end Heads

/-! ## A chain of three blocks -/

/-- The records of a line of headers. -/
def lineRecords (xs : List Stored) (head : Hash) : Records where
  number := fun h => (xs.find? fun x => x.hash = h).map fun x => fixed 8 x.number
  canonical := fun n => (xs.find? fun x => x.numberU64 = n).map Stored.hash
  header := fun k => xs.find? fun x => (x.numberU64, x.hash) = k
  body := fun k => (xs.find? fun x => (x.numberU64, x.hash) = k).map fun _ => [0xc2, 0xc0, 0xc0]
  receipts := fun _ => none
  headHeader := some head
  headBlock := some head
  headFast := some head

/-- A line of three. -/
def threeBlocks : List Stored := [⟨1, 0, 0, 0, 0⟩, ⟨2, 1, 1, 0, 0⟩, ⟨3, 2, 2, 0, 0⟩]

/-- All heads at one block. -/
def standsAt (x : Stored) : ChainState where
  db := lineRecords threeBlocks x.hash
  genesis := ⟨1, 0, 0, 0, 0⟩
  currentHeader := x
  currentBlock := x
  currentFastBlock := x
  hasState := fun _ => true
  decodes := fun _ => true

theorem filed_threeBlocks (head : Hash) : (lineRecords threeBlocks head).Filed where
  filed {n h x} hx := by
    have member := List.mem_of_find?_eq_some hx
    have key : (x.numberU64, x.hash) = (n, h) := by simpa using List.find?_some hx
    obtain ⟨rfl, rfl⟩ := Prod.mk.inj key
    have all : ∀ y ∈ threeBlocks, y.number = y.numberU64.toNat ∧ y.hash ≠ 0 := by decide
    exact ⟨rfl, all x member⟩
  numbered {n h x} hx := by
    have member := List.mem_of_find?_eq_some hx
    have key : (x.numberU64, x.hash) = (n, h) := by simpa using List.find?_some hx
    obtain ⟨rfl, rfl⟩ := Prod.mk.inj key
    have all : ∀ y ∈ threeBlocks,
      ((threeBlocks.find? fun x => x.hash = y.hash).map fun x => fixed 8 x.number) =
        some (fixed 8 y.numberU64.toNat) := by decide
    exact all x member
  sized {h data} hd := by
    obtain ⟨x, -, rfl⟩ := map_eq_some_iff.1 hd
    exact length_fixed 8 _

theorem sound_standsAt : ∀ x ∈ threeBlocks, (standsAt x).Sound := by
  have stored : ∀ x ∈ threeBlocks, (standsAt x).getBlock x.hash x.numberU64 = some x := by decide
  have lined : ∀ x ∈ threeBlocks, ∀ k ≤ x.numberU64.toNat,
    ((standsAt x).db.ancestor k x).isSome := by decide
  intro x hx
  exact
    { filed := filed_threeBlocks x.hash
      genesis_number := rfl
      genesis_stored := rfl
      genesis_canonical := rfl
      genesis_state := rfl
      header_stored := getBlock_eq_some (stored x hx)
      header_lined := lined x hx
      block_stored := stored x hx
      fast_stored := stored x hx }

/-- `Rollback` of the third block leaves the entry of its number, and so does `SetHead` to the
genesis block. -/
theorem rollback_then_setHead :
    (standsAt ⟨3, 2, 2, 0, 0⟩).Sound ∧ (standsAt ⟨3, 2, 2, 0, 0⟩).rollback [3] =
      .ok (standsAt ⟨2, 1, 1, 0, 0⟩) ∧ (standsAt ⟨2, 1, 1, 0, 0⟩).Sound ∧
      ((standsAt ⟨2, 1, 1, 0, 0⟩).setHead 0).map (fun c => c.db.canonical 2) = .ok (some 3) :=
  ⟨sound_standsAt _ (by decide), rfl, sound_standsAt _ (by decide), by decide +kernel⟩

theorem setHead_second : ∃ c', (standsAt ⟨3, 2, 2, 0, 0⟩).setHead 1 = .ok c' ∧ c'.Rewound 1 := by
  obtain ⟨c', eq, rewound⟩ := setHead_rewound_iff (sound_standsAt ⟨3, 2, 2, 0, 0⟩ (by decide)) 1
  refine ⟨c', eq, rewound.2 ⟨fun n _ higher => ?_, fun x hx => ?_, fun _ h => absurd h (by decide),
    fun _ h => absurd h (by decide)⟩⟩
  · have all : ∀ y ∈ threeBlocks, y.numberU64 ≤ 2 := by decide
    refine Option.map_eq_none_iff.2
      (List.find?_eq_none.2 fun y hy number => UInt64.not_lt.2 (all y hy) ?_)
    rw [of_decide_eq_true number]
    exact higher
  · cases hx
    rfl

end ChainState

end JuChain
