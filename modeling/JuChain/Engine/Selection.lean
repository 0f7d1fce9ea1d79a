import JuChain.Engine.GasLimit
import JuChain.Engine.Uncles
import Mathlib.Data.List.Nodup

/-!
# Uncles of a new block

`makeCurrent`, `commitUncle` and the loop over `possibleUncles` in `GenerateNewBlock`.  The packager
makes the same tests as `VerifyUncles` but one, that the parent of an uncle is not the parent of the
block.  So the uncles of a new block are accepted exactly when no side block on the current head is
a candidate.
-/

namespace JuChain.Engine

open List

variable {hash : Header → Hash} {uncles : List Header}

/-- The chain as the packager reads it, with `GetBlockNumber`. -/
structure NumberedChain (hash : Header → Hash) extends ChainReader hash where
  getBlockNumber : Hash → ℕ
  numbered : ∀ {h n b}, getBlock h n = some b → getBlockNumber h = n

namespace NumberedChain

variable (chain : NumberedChain hash)

def getBlocksFromHash (h : Hash) (n : ℕ) : List Block := chain.walk n h (chain.getBlockNumber h)

end NumberedChain

/-! ## Choosing uncles -/

/-- The sets of `Work` for uncles. -/
structure Work where
  ancestors : List Hash
  family : List Hash
  uncles : List Hash

def makeCurrent (chain : NumberedChain hash) (parent : Block) : Work :=
  let blocks := chain.getBlocksFromHash (hash parent.header) 7
  { ancestors := blocks.map fun a => hash a.header
    family := blocks.flatMap fun a => hash a.header :: a.uncles.map hash
    uncles := [] }

/-- The errors of `commitUncle`. -/
inductive CommitError
  | notUnique
  | parentUnknown
  | alreadyInFamily
  deriving DecidableEq

def commitUncle (hash : Header → Hash) (work : Work) (u : Header) : Except CommitError Work :=
  if hash u ∈ work.uncles then .error .notUnique
  else if u.parentHash ∉ work.ancestors then .error .parentUnknown
  else if hash u ∈ work.family then .error .alreadyInFamily
  else .ok { work with uncles := hash u :: work.uncles }

/-- The loop over `possibleUncles`: the chosen uncles and the bad candidates. -/
def selectUncles (hash : Header → Hash) :
    Work → List Header → List Hash → List Block → List Header × List Hash
  | _, uncles, bad, [] => (uncles, bad)
  | work, uncles, bad, b :: rest =>
    if uncles.length = 2 then (uncles, bad)
    else match commitUncle hash work b.header with
      | .error _ => selectUncles hash work uncles (bad ++ [hash b.header]) rest
      | .ok work => selectUncles hash work (uncles ++ [b.header]) bad rest

theorem commitUncle_eq_ok_iff {work work' : Work} {u : Header} : commitUncle hash work u = .ok work' ↔
      hash u ∉ work.uncles ∧ u.parentHash ∈ work.ancestors ∧ hash u ∉ work.family ∧
        work' = { work with uncles := hash u :: work.uncles } := by
  unfold commitUncle
  rw [Slices.ite_error_eq_ok_iff, Slices.ite_error_eq_ok_iff, Slices.ite_error_eq_ok_iff, not_not,
    Except.ok.injEq, eq_comm]

/-- What is known of the chosen uncles. -/
structure Chosen (hash : Header → Hash) (candidates : List Block) (work : Work)
    (uncles : List Header) : Prop where
  length : uncles.length ≤ 2
  distinct : (uncles.map hash).Nodup
  noted : ∀ u ∈ uncles, hash u ∈ work.uncles
  candidate : ∀ u ∈ uncles, ∃ b ∈ candidates, b.header = u
  parent : ∀ u ∈ uncles, u.parentHash ∈ work.ancestors
  outside : ∀ u ∈ uncles, hash u ∉ work.family

theorem Chosen.add {candidates : List Block} {work work' : Work} {b : Block}
    (h : Chosen hash candidates work uncles) (room : uncles.length ≠ 2) (hb : b ∈ candidates)
    (committed : commitUncle hash work b.header = .ok work') :
    Chosen hash candidates work' (uncles ++ [b.header]) := by
  obtain ⟨hnew, hparent, hfamily, rfl⟩ := commitUncle_eq_ok_iff.1 committed
  have hlength := h.length
  have mem {P : Header → Prop} (hold : ∀ u ∈ uncles, P u) (hlast : P b.header) :
      ∀ u ∈ uncles ++ [b.header], P u := by
    intro u hu
    rcases mem_append.1 hu with hu | hu
    · exact hold u hu
    · rw [mem_singleton.1 hu]
      exact hlast
  refine ⟨?_, ?_, ?_, mem h.candidate ⟨b, hb, rfl⟩, mem h.parent hparent, mem h.outside hfamily⟩
  · rw [length_append, length_singleton]
    omega
  · rw [map_append, map_singleton, nodup_append]
    refine ⟨h.distinct, nodup_singleton _, ?_⟩
    rintro x hx y hy rfl
    obtain ⟨u, hu, rfl⟩ := mem_map.1 hx
    exact hnew (mem_singleton.1 hy ▸ h.noted u hu)
  · exact mem (fun u hu => mem_cons_of_mem _ (h.noted u hu)) mem_cons_self

theorem selectUncles_chosen {candidates order : List Block} {work : Work}
    (bad : List Hash) (h : Chosen hash candidates work uncles) (horder : order ⊆ candidates) :
    ∃ noted, Chosen hash candidates { work with uncles := noted }
      (selectUncles hash work uncles bad order).1 := by
  induction order generalizing work uncles bad with
  | nil => exact ⟨work.uncles, h⟩
  | cons b rest ih =>
    obtain ⟨hb, hrest⟩ := cons_subset.1 horder
    unfold selectUncles
    split_ifs with hfull
    · exact ⟨work.uncles, h⟩
    · cases hc : commitUncle hash work b.header with
      | error e => exact ih _ h hrest
      | ok work' =>
        have next := ih bad (h.add hfull hb hc) hrest
        obtain ⟨-, -, -, rfl⟩ := commitUncle_eq_ok_iff.1 hc
        exact next

theorem subset_selectUncles (work : Work) (uncles : List Header) (bad : List Hash)
    (rest : List Block) : uncles ⊆ (selectUncles hash work uncles bad rest).1 := by
  induction rest generalizing work uncles bad with
  | nil => exact Subset.refl _
  | cons b rest ih =>
    unfold selectUncles
    split_ifs
    · exact Subset.refl _
    · cases commitUncle hash work b.header with
      | error e => exact ih _ _ _
      | ok work' => exact Subset.trans (subset_append_left _ _) (ih _ _ _)

/-! ## Candidates and the new block -/

/-- A chain with its head, on which another block still has a number of 64 bits. -/
structure HeadedChain (hash : Header → Hash) extends NumberedChain hash where
  currentBlock : Block
  current : getBlock (hash currentBlock.header) currentBlock.number = some currentBlock
  short : currentBlock.number + 1 < 2 ^ 64

/-- A stored side block: its header passed verification against its stored parent. -/
structure SideBlock (chain : NumberedChain hash) where
  block : Block
  stored : chain.getBlock (hash block.header) block.number = some block
  parent : Block
  parentStored : chain.getBlock block.parentHash parent.number = some parent
  verifiedAt : Clock
  verified : Acceptable verifiedAt block.header parent.header false true

theorem Acceptable.asUncle {time now : Clock} {header parent : Header}
    (h : Acceptable time header parent false true) : Acceptable now header parent true true := by
  have hbound := time.bound
  have htime : header.time ≤ time.unix + 15 := h.time
  have large : header.time ≤ maxBig256 := by
    unfold maxBig256
    omega
  exact ⟨h.extra, large, h.after, h.difficulty, h.limit, h.used, h.gap, h.minimum, h.number,
    h.positive⟩

section NewBlock

variable (chain : HeadedChain hash) (p : Packager) (now : Clock) (round : UInt64)
  (presidentId : GoString) (x : Summary)

/-- The header of the new block, once its transactions and uncles are known. -/
def packagedHeader : Header :=
  (newHeader p now round presidentId (hash chain.currentBlock.header)
    chain.currentBlock.header).complete x

/-- The uncles that are packaged. -/
def packagedUncles (order : List (SideBlock chain.toNumberedChain)) : List Header :=
  (selectUncles hash (makeCurrent chain.toNumberedChain chain.currentBlock) [] []
    (order.map (·.block))).1

/-- The block that is packaged. -/
def packagedBlock (order : List (SideBlock chain.toNumberedChain)) : Block :=
  ⟨packagedHeader chain p now round presidentId x, packagedUncles chain order⟩

/-- The work on top of the current block. -/
abbrev HeadedChain.work : Work := makeCurrent chain.toNumberedChain chain.currentBlock

theorem ancestors_packagedBlock (order : List (SideBlock chain.toNumberedChain)) :
    chain.ancestors (packagedBlock chain p now round presidentId x order) =
      chain.getBlocksFromHash (hash chain.currentBlock.header) 7 := by
  have number : (packagedBlock chain p now round presidentId x order).number =
      chain.currentBlock.number + 1 := rfl
  rw [ChainReader.ancestors, number, Nat.mod_eq_of_lt chain.short,
    NumberedChain.getBlocksFromHash, chain.numbered chain.current]
  rfl

variable {h : Hash}

theorem ChainReader.stored_of_mem_walk {chain : ChainReader hash} {k n : ℕ} {b : Block}
    (hb : b ∈ chain.walk k h n) : chain.getBlock (hash b.header) b.number = some b := by
  induction k generalizing h n with
  | zero => simp [walk] at hb
  | succ k ih =>
    rcases walk_cases hb with hc | ⟨c, m, -, hb⟩
    · obtain ⟨hh, hn⟩ := chain.filed hc
      rw [hh, hn]
      exact hc
    · exact ih hb

variable {chain p now round presidentId x}

theorem NumberedChain.unique {chain : NumberedChain hash} {a b : Block} {n m : ℕ}
    (ha : chain.getBlock h n = some a) (hb : chain.getBlock h m = some b) : a = b := by
  have hnm : n = m := (chain.numbered ha).symm.trans (chain.numbered hb)
  exact Option.some.inj (ha.symm.trans (hnm ▸ hb))

theorem mem_ancestors_makeCurrent : h ∈ chain.work.ancestors ↔
      ∃ a ∈ chain.getBlocksFromHash (hash chain.currentBlock.header) 7, hash a.header = h :=
  mem_map

theorem mem_family_makeCurrent : h ∈ chain.work.family ↔
      ∃ a ∈ chain.getBlocksFromHash (hash chain.currentBlock.header) 7,
        h = hash a.header ∨ ∃ v ∈ a.uncles, hash v = h := by
  simp [makeCurrent]

theorem head_mem : chain.currentBlock ∈ chain.getBlocksFromHash (hash chain.currentBlock.header) 7 := by
  rw [NumberedChain.getBlocksFromHash, chain.numbered chain.current, ChainReader.walk, chain.current]
  exact mem_cons_self

/-- A stored block with the hash of the new header has this header. -/
def HashIsNew (chain : ChainReader hash) (header : Header) : Prop :=
  ∀ n b, chain.getBlock (hash header) n = some b → b.header = header

variable {order : List (SideBlock chain.toNumberedChain)}

theorem hash_ancestor_ne (new : HashIsNew chain.toChainReader
      (packagedHeader chain p now round presidentId x))
    {a : Block} (ha : a ∈ chain.getBlocksFromHash (hash chain.currentBlock.header) 7) :
    hash a.header ≠ hash (packagedHeader chain p now round presidentId x) := by
  intro heq
  have stored := ChainReader.stored_of_mem_walk ha
  rw [heq] at stored
  have header := new _ _ stored
  have below : a.number ≤ chain.currentBlock.number := by
    rw [NumberedChain.getBlocksFromHash, chain.numbered chain.current] at ha
    exact (ChainReader.mem_walk ha).1
  have above : a.number = chain.currentBlock.number + 1 := by
    rw [Block.number, header]
    rfl
  omega

/-- A candidate that `commitUncle` takes and that is no sibling of the new block passes
`VerifyUncles`. -/
theorem uncleOk_of_committed (verifier : Clock) (new : HashIsNew chain.toChainReader
      (packagedHeader chain p now round presidentId x)) (c : SideBlock chain.toNumberedChain)
    (parent : c.block.parentHash ∈ chain.work.ancestors)
      (outside : hash c.block.header ∉ chain.work.family)
    (notSibling : c.block.parentHash ≠ hash chain.currentBlock.header) :
    let b := packagedBlock chain p now round presidentId x order
    hash c.block.header ∉ pastUncles hash (chain.ancestors b) b ∧
      UncleOk hash verifier (ancestorHeader hash (chain.ancestors b) b) b.parentHash
        c.block.header := by
  dsimp only
  rw [ancestors_packagedBlock]
  rw [mem_family_makeCurrent] at outside
  have notNew : hash c.block.header ≠
      hash (packagedHeader chain p now round presidentId x) := by
    intro heq
    have header := new c.block.number c.block (heq ▸ c.stored)
    refine notSibling ?_
    rw [Block.parentHash, header]
    rfl
  refine ⟨?_, ?_, ?_, notSibling⟩
  · rintro hmem
    rcases mem_cons.1 hmem with heq | hmem
    · exact notNew heq
    · obtain ⟨a, ha, hv⟩ := mem_flatMap.1 hmem
      exact outside ⟨a, ha, .inr (mem_map.1 hv)⟩
  · exact ancestorHeader_eq_none_iff.2
      ⟨fun heq => notNew heq.symm, fun a ha heq => outside ⟨a, ha, .inl heq.symm⟩⟩
  · obtain ⟨a, ha, haparent⟩ := mem_ancestors_makeCurrent.1 parent
    cases hp : ancestorHeader hash (chain.getBlocksFromHash (hash chain.currentBlock.header) 7)
        (packagedBlock chain p now round presidentId x order) c.block.parentHash with
    | none => exact absurd haparent ((ancestorHeader_eq_none_iff.1 hp).2 a ha)
    | some q =>
      obtain ⟨hhash, rfl | ⟨d, hd, rfl⟩⟩ := ancestorHeader_eq_some hp
      · exact absurd (haparent.trans hhash.symm) (hash_ancestor_ne new ha)
      · -- The ancestor with the hash of the parent is the parent it was verified against.
        have stored := ChainReader.stored_of_mem_walk hd
        rw [hhash] at stored
        obtain rfl := NumberedChain.unique stored c.parentStored
        exact ⟨_, hp, c.verified.asUncle⟩

theorem packagedUncles_chosen (order : List (SideBlock chain.toNumberedChain)) :
    ∃ noted, Chosen hash (order.map (·.block)) { chain.work with uncles := noted }
      (packagedUncles chain order) :=
  selectUncles_chosen [] ⟨by simp, by simp, by simp, by simp, by simp, by simp⟩ (Subset.refl _)

theorem mem_packagedUncles (c : SideBlock chain.toNumberedChain)
    (parent : c.block.parentHash ∈ chain.work.ancestors)
    (outside : hash c.block.header ∉ chain.work.family) :
    c.block.header ∈ packagedUncles chain (c :: order) := by
  have committed := commitUncle_eq_ok_iff.2
    ⟨show hash c.block.header ∉ [] from not_mem_nil, parent, outside, rfl⟩
  have first : selectUncles hash chain.work [] [] (c.block :: order.map (·.block)) =
      selectUncles hash { chain.work with uncles := [hash c.block.header] } [c.block.header] []
        (order.map (·.block)) := by
    rw [selectUncles, if_neg (by simp), committed]
    rfl
  unfold packagedUncles
  rw [map_cons, first]
  exact subset_selectUncles _ _ _ _ mem_cons_self

/-- The uncles of a new block pass `VerifyUncles`, in whatever order the candidates are listed,
exactly when every candidate on the current head is in its family already. -/
theorem packaged_uncles_accepted_iff (verifier : Clock)
    (x : List (SideBlock chain.toNumberedChain) → Summary)
    (new : ∀ order, HashIsNew chain.toChainReader
      (packagedHeader chain p now round presidentId (x order)))
    (possibleUncles : List (SideBlock chain.toNumberedChain)) :
    (∀ order, order.Perm possibleUncles → verifyUncles verifier chain.toChainReader
        (packagedBlock chain p now round presidentId (x order) order) = .ok ()) ↔
      ∀ c ∈ possibleUncles, c.block.parentHash = hash chain.currentBlock.header →
        hash c.block.header ∈ (makeCurrent chain.toNumberedChain chain.currentBlock).family := by
  constructor
  · intro accepted c hc sibling
    by_contra outside
    have parent : c.block.parentHash ∈ chain.work.ancestors :=
      mem_ancestors_makeCurrent.2 ⟨_, head_mem, sibling.symm⟩
    -- Listed first, the sibling is taken, and its presence is refused.
    obtain ⟨before, after, rfl⟩ := append_of_mem hc
    have listed := accepted (c :: (before ++ after)) perm_middle.symm
    have taken : c.block.header ∈ packagedUncles chain (c :: (before ++ after)) :=
      mem_packagedUncles c parent outside
    exact ((verifyUncles_eq_ok_iff.1 listed).each _ taken).notSibling sibling
  · intro siblings order horder
    obtain ⟨noted, chosen⟩ := packagedUncles_chosen order
    have each : ∀ u ∈ packagedUncles chain order, ∃ c ∈ possibleUncles, c.block.header = u ∧
        c.block.parentHash ∈ chain.work.ancestors ∧ hash c.block.header ∉ chain.work.family := by
      intro u hu
      obtain ⟨b, hb, rfl⟩ := chosen.candidate u hu
      obtain ⟨c, hc, rfl⟩ := mem_map.1 hb
      exact ⟨c, horder.subset hc, rfl, chosen.parent _ hu, chosen.outside _ hu⟩
    refine verifyUncles_eq_ok_iff.2 ⟨chosen.length, chosen.distinct, fun u hu => ?_, fun u hu => ?_⟩
    all_goals
      obtain ⟨c, hc, rfl, parent, outside⟩ := each u hu
      have notSibling : c.block.parentHash ≠ hash chain.currentBlock.header :=
        fun sibling => outside (siblings c hc sibling)
    · exact (uncleOk_of_committed verifier (new order) c parent outside notSibling).1
    · exact (uncleOk_of_committed verifier (new order) c parent outside notSibling).2

end NewBlock

/-! ## Samples -/

/-- Two children of the genesis block, the earlier one the head, and a side block on it. -/
def forkedChain : HeadedChain sampleHash where
  getBlock h n :=
    if h = sampleHash sampleGenesis ∧ n = 0 then some ⟨sampleGenesis, []⟩
    else if h = sampleHash (childOf sampleGenesis 10) ∧ n = 1 then
      some ⟨childOf sampleGenesis 10, []⟩
    else if h = sampleHash (childOf sampleGenesis 11) ∧ n = 1 then
      some ⟨childOf sampleGenesis 11, []⟩
    else if h = sampleHash (childOf (childOf sampleGenesis 10) 15) ∧ n = 2 then
      some ⟨childOf (childOf sampleGenesis 10) 15, []⟩
    else none
  filed h := by
    split_ifs at h with hk hk hk hk
    all_goals
      obtain rfl := Option.some.inj h
      exact ⟨hk.1.symm, hk.2.symm⟩
  getBlockNumber h := h.toNat / 100
  numbered h := by
    split_ifs at h with hk hk hk hk
    all_goals
      obtain ⟨rfl, rfl⟩ := hk
      decide
  currentBlock := ⟨childOf sampleGenesis 10, []⟩
  current := by decide
  short := by decide

/-- A child of the genesis block that came late. -/
def lateBlock : SideBlock forkedChain.toNumberedChain where
  block := ⟨childOf sampleGenesis 11, []⟩
  stored := by decide
  parent := ⟨sampleGenesis, []⟩
  parentStored := by decide
  verifiedAt := sampleClock
  verified := verifyHeader_eq_ok_iff.1 (by decide)

/-- A sibling of the current block's child. -/
def siblingBlock : SideBlock forkedChain.toNumberedChain where
  block := ⟨childOf (childOf sampleGenesis 10) 15, []⟩
  stored := by decide
  parent := ⟨childOf sampleGenesis 10, []⟩
  parentStored := by decide
  verifiedAt := sampleClock
  verified := verifyHeader_eq_ok_iff.1 (by decide)

/-- A packager. -/
def samplePackager : Packager := ⟨7, 41424776⟩

/-- An empty summary. -/
def sampleSummary : Summary := ⟨0, emptyUncleHash, 0, 0, 0, 0⟩

theorem sampleHash_new : HashIsNew forkedChain.toChainReader
      (packagedHeader forkedChain samplePackager ⟨20, by norm_num⟩ 1 [] sampleSummary) := by
  intro n b h
  have missing : forkedChain.getBlock (sampleHash
      (packagedHeader forkedChain samplePackager ⟨20, by norm_num⟩ 1 [] sampleSummary)) 2 =
      none := by decide
  exact nomatch missing.symm.trans h

theorem packaged_uncles_accepted_late : verifyUncles ⟨100, by norm_num⟩ forkedChain.toChainReader
      (packagedBlock forkedChain samplePackager ⟨20, by norm_num⟩ 1 [] sampleSummary [lateBlock]) =
      .ok () := by
  refine (packaged_uncles_accepted_iff _ (fun _ => sampleSummary) (fun _ => sampleHash_new)
    [lateBlock]).2 (fun c hc sibling => ?_) [lateBlock] (.refl _)
  obtain rfl := mem_singleton.1 hc
  exact absurd sibling (by decide)

/-- The packager takes an uncle on the head, which `VerifyUncles` refuses. -/
theorem sibling_packaged_and_refused :
    packagedUncles forkedChain [siblingBlock] = [siblingBlock.block.header] ∧
      verifyUncles ⟨100, by norm_num⟩ forkedChain.toChainReader
        (packagedBlock forkedChain samplePackager ⟨20, by norm_num⟩ 1 [] sampleSummary
          [siblingBlock]) = .error .danglingUncle := by
  constructor <;> decide

end JuChain.Engine
