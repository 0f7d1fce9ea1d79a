import JuChain.Engine.Header
import JuChain.State.StateDB
import Mathlib.Tactic.Ring

/-!
# Uncles and their rewards

`DElection.VerifyUncles` accepts an uncle that is none of the last seven ancestors and none of their
uncles, that passes header verification against one of them, and whose parent is not the block's
own. The block itself is among the possible parents.
-/

namespace JuChain.Engine

open List

/-- A block with its uncles. -/
structure Block where
  header : Header
  uncles : List Header
  deriving DecidableEq

namespace Block

/-- The number of a block. -/
def number (b : Block) : ℕ := b.header.number

/-- The parent of a block. -/
def parentHash (b : Block) : Hash := b.header.parentHash

end Block

/-- `consensus.ChainReader`: `GetBlock` retrieves a block by its hash and number. -/
structure ChainReader (hash : Header → Hash) where
  getBlock : Hash → ℕ → Option Block
  filed : ∀ {h n b}, getBlock h n = some b → hash b.header = h ∧ b.number = n

variable {hash : Header → Hash}

/-- At most `k` blocks towards the genesis block, below which nothing is found. -/
def ChainReader.walk (chain : ChainReader hash) : ℕ → Hash → ℕ → List Block
  | 0, _, _ => []
  | k + 1, h, n =>
    match chain.getBlock h n with
    | none => []
    | some b => b :: match n with
      | 0 => []
      | n + 1 => chain.walk k b.parentHash n

/-- The walk starts at `NumberU64()-1`, cut to 64 bits.  No chain has a block where zero wraps
around to. -/
def ChainReader.ancestors (chain : ChainReader hash) (b : Block) : List Block :=
  match b.number % 2 ^ 64 with
  | 0 => []
  | n + 1 => chain.walk 7 b.parentHash n

variable {chain : ChainReader hash} {b a : Block}

theorem ChainReader.walk_cases {k n : ℕ} {h : Hash} (hb : b ∈ chain.walk (k + 1) h n) :
    chain.getBlock h n = some b ∨ ∃ c m, n = m + 1 ∧ b ∈ chain.walk k (Block.parentHash c) m := by
  unfold walk at hb
  split at hb
  · simp at hb
  · rename_i c hc
    rcases mem_cons.1 hb with rfl | hb
    · exact .inl hc
    · cases n with
      | zero => simp at hb
      | succ n => exact .inr ⟨c, n, rfl, hb⟩

theorem ChainReader.mem_walk {k n : ℕ} {h : Hash} (hb : b ∈ chain.walk k h n) :
    b.number ≤ n ∧ n < b.number + k := by
  induction k generalizing h n with
  | zero => simp [walk] at hb
  | succ k ih =>
    rcases walk_cases hb with hc | ⟨c, m, rfl, rest⟩
    · have := (chain.filed hc).2
      omega
    · have := ih rest
      omega

/-- The errors of `VerifyUncles`. -/
inductive UncleError
  | tooManyUncles
  | duplicateUncle
  | uncleIsAncestor
  | danglingUncle
  | header (e : HeaderError)
  deriving DecidableEq

/-- The map `ancestors` of `VerifyUncles`; the last assignment counts, which is the block itself. -/
def ancestorHeader (hash : Header → Hash) (ancestors : List Block) (b : Block) (h : Hash) :
    Option Header :=
  (b.header :: (ancestors.map (·.header)).reverse).find? fun a => hash a = h

/-- The set `uncles` of `VerifyUncles`, with the block itself. -/
def pastUncles (hash : Header → Hash) (ancestors : List Block) (b : Block) : List Hash :=
  hash b.header :: ancestors.flatMap fun a => a.uncles.map hash

/-- The loop of `VerifyUncles`, with the uncles already seen. -/
def checkUncles (hash : Header → Hash) (now : Clock) (headerOf : Hash → Option Header)
    (parentHash : Hash) : List Hash → List Header → Except UncleError Unit
  | _, [] => .ok ()
  | seen, u :: rest =>
    if hash u ∈ seen then .error .duplicateUncle
    else if (headerOf (hash u)).isSome then .error .uncleIsAncestor
    else match headerOf u.parentHash with
      | none => .error .danglingUncle
      | some parent =>
        if u.parentHash = parentHash then .error .danglingUncle
        else match verifyHeader now u parent true true with
          | .error e => .error (.header e)
          | .ok _ => checkUncles hash now headerOf parentHash (hash u :: seen) rest

def maxUncles : ℕ := 2

def verifyUncles (now : Clock) (chain : ChainReader hash) (b : Block) : Except UncleError Unit :=
  if maxUncles < b.uncles.length then .error .tooManyUncles
  else checkUncles hash now (ancestorHeader hash (chain.ancestors b) b) b.parentHash
    (pastUncles hash (chain.ancestors b) b) b.uncles

/-- What the loop demands of one uncle, apart from not having been seen. -/
structure UncleOk (hash : Header → Hash) (now : Clock) (headerOf : Hash → Option Header)
    (parentHash : Hash) (u : Header) : Prop where
  notAncestor : headerOf (hash u) = none
  parent : ∃ p, headerOf u.parentHash = some p ∧ Acceptable now u p true true
  notSibling : u.parentHash ≠ parentHash

section Loop

variable {now : Clock} {headerOf : Hash → Option Header} {parentHash : Hash} {seen : List Hash}
  {u : Header} {uncles : List Header}

theorem checkUncles_cons : checkUncles hash now headerOf parentHash seen (u :: uncles) = .ok () ↔
      hash u ∉ seen ∧ UncleOk hash now headerOf parentHash u ∧
        checkUncles hash now headerOf parentHash (hash u :: seen) uncles = .ok () := by
  rw [checkUncles, Slices.ite_error_eq_ok_iff, Slices.ite_error_eq_ok_iff]
  refine and_congr_right fun _ => ?_
  cases hp : headerOf u.parentHash with
  | none =>
    refine iff_of_false nofun fun ⟨⟨_, ⟨p, hp', _⟩, _⟩, _⟩ => ?_
    exact nomatch hp ▸ hp'
  | some p =>
    simp only [Slices.ite_error_eq_ok_iff]
    cases hv : verifyHeader now u p true true with
    | error e =>
      refine iff_of_false (fun h => nomatch h.2.2) fun ⟨⟨_, ⟨q, hq, accepted⟩, _⟩, _⟩ => ?_
      obtain rfl := Option.some.inj (hp.symm.trans hq)
      exact nomatch hv.symm.trans (verifyHeader_eq_ok_iff.2 accepted)
    | ok _ =>
      constructor
      · rintro ⟨notAncestor, notSibling, hrest⟩
        exact ⟨⟨by simpa using notAncestor, ⟨p, hp, verifyHeader_eq_ok_iff.1 hv⟩, notSibling⟩,
          hrest⟩
      · rintro ⟨⟨notAncestor, -, notSibling⟩, hrest⟩
        exact ⟨by simp [notAncestor], notSibling, hrest⟩

theorem checkUncles_eq_ok_iff : checkUncles hash now headerOf parentHash seen uncles = .ok () ↔
      (uncles.map hash).Nodup ∧ (∀ u ∈ uncles, hash u ∉ seen) ∧
        ∀ u ∈ uncles, UncleOk hash now headerOf parentHash u := by
  induction uncles generalizing seen with
  | nil => simp [checkUncles]
  | cons u rest ih =>
    rw [checkUncles_cons, ih]
    simp only [map_cons, nodup_cons, mem_cons, forall_eq_or_imp, not_or,
      mem_map, not_exists, not_and]
    constructor
    · rintro ⟨hseen, hu, hnodup, hrest, hall⟩
      exact ⟨⟨fun v hv => (hrest v hv).1, hnodup⟩, ⟨hseen, fun v hv => (hrest v hv).2⟩, hu, hall⟩
    · rintro ⟨⟨hdistinct, hnodup⟩, ⟨hseen, hrest⟩, hu, hall⟩
      exact ⟨hseen, hu, hnodup, fun v hv => ⟨hdistinct v hv, hrest v hv⟩, hall⟩

end Loop

/-- What `VerifyUncles` demands of a block. -/
structure UnclesOk (now : Clock) (chain : ChainReader hash) (b : Block) : Prop where
  length : b.uncles.length ≤ maxUncles
  distinct : (b.uncles.map hash).Nodup
  fresh : ∀ u ∈ b.uncles, hash u ∉ pastUncles hash (chain.ancestors b) b
  each : ∀ u ∈ b.uncles,
    UncleOk hash now (ancestorHeader hash (chain.ancestors b) b) b.parentHash u

theorem verifyUncles_eq_ok_iff {now : Clock} :
    verifyUncles now chain b = .ok () ↔ UnclesOk now chain b := by
  rw [verifyUncles, Slices.ite_error_eq_ok_iff, checkUncles_eq_ok_iff, not_lt]
  constructor
  · rintro ⟨length, distinct, fresh, each⟩
    exact ⟨length, distinct, fresh, each⟩
  · rintro ⟨length, distinct, fresh, each⟩
    exact ⟨length, distinct, fresh, each⟩

section Generations

variable {ancestors : List Block} {b : Block} {h : Hash}

theorem ancestorHeader_eq_none_iff : ancestorHeader hash ancestors b h = none ↔
      hash b.header ≠ h ∧ ∀ a ∈ ancestors, hash a.header ≠ h := by
  simp [ancestorHeader, find?_eq_none]

theorem ancestorHeader_eq_some {p : Header} (hp : ancestorHeader hash ancestors b h = some p) :
    hash p = h ∧ (p = b.header ∨ ∃ a ∈ ancestors, a.header = p) := by
  refine ⟨by simpa using find?_some hp, ?_⟩
  have hmem := mem_of_find?_eq_some hp
  simpa using hmem

end Generations

open State

/-- `ByzantiumBlockReward`. -/
def blockReward : ℤ := 3000000000000000000

/-- The reward of an uncle of a block of the given number. -/
def uncleReward (number : ℕ) (u : Header) : ℤ := ((u.number : ℤ) + 8 - number) * blockReward / 8

/-- The loop of `accumulateRewards`: uncles are paid at once, the miner's reward is summed up. -/
def rewardUncles (number : ℕ) : StateDB → ℤ → List Header → StateDB × ℤ
  | s, reward, [] => (s, reward)
  | s, reward, u :: rest =>
    rewardUncles number (s.addBalance u.coinbase (uncleReward number u))
      (reward + blockReward / 32) rest

/-- The miner is paid last. -/
def accumulateRewards (s : StateDB) (header : Header) (uncles : List Header) : StateDB :=
  let (s, reward) := rewardUncles header.number s blockReward uncles
  s.addBalance header.coinbase reward

/-- Tells apart the headers used here. -/
def sampleHash (h : Header) : Hash := BitVec.ofNat 256 (100 * h.number + h.time.toNat)

/-- A child of the header. -/
def childOf (parent : Header) (time : ℤ) : Header :=
  { sampleGenesis with
    parentHash := sampleHash parent
    number := parent.number + 1
    time := time
    difficulty := difficultyAt time parent }

end JuChain.Engine
