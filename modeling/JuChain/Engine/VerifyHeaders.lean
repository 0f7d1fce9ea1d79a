import JuChain.Engine.Header
import JuChain.Lib.Reorder

/-!
# Verifying a batch of headers

`DElection.VerifyHeaders` delivers the results of several workers in the order of the headers
(`Lib.Reorder`).  A worker takes the parent of a header from the batch, without comparing numbers,
and it asks for the parent before it asks whether the header is known.
-/

namespace JuChain.Engine

open List Option

/-- A header with its hash, which depends on fields that are left out here too. -/
structure HashedHeader where
  header : Header
  hash : Hash
  deriving DecidableEq

/-- `Number.Uint64`. -/
def HashedHeader.number64 (x : HashedHeader) : UInt64 := UInt64.ofNat x.header.number

/-- `GetHeader` of a chain. -/
abbrev Reader := Hash → UInt64 → Option HashedHeader

variable (chain : Reader)

/-- A header of the batch, and whether its seal is checked. -/
structure Job where
  item : HashedHeader
  withSeal : Bool
  deriving DecidableEq

/-- The errors of a verification. -/
inductive VerifyError
  | unknownAncestor
  | header (err : HeaderError)
  deriving DecidableEq

/-- The result for a header. -/
abbrev Verdict := Except VerifyError Unit

/-- `verifyHeader`, after the parent has been found. -/
def verifyAgainst (now : Clock) (job : Job) (parent : HashedHeader) : Verdict :=
  (verifyHeader now job.item.header parent.header false job.withSeal).mapError .header

/-- The chain has the header. -/
def Known (job : Job) : Bool := (chain job.item.hash job.item.number64).isSome

/-- The parent in the chain. -/
def parentOf (job : Job) : Option HashedHeader :=
  chain job.item.header.parentHash (job.item.number64 - 1)

/-- `VerifyHeader`. -/
def verifySingle (now : Clock) (job : Job) : Verdict :=
  if Known chain job then .ok ()
  else match parentOf chain job with
    | none => .error .unknownAncestor
    | some parent => verifyAgainst now job parent

/-- The parent that a worker finds. -/
def workerParent (batch : List Job) (index : ℕ) (job : Job) : Option HashedHeader :=
  if index = 0 then parentOf chain job
  else match batch[index - 1]? with
    | some previous =>
      if previous.item.hash = job.item.header.parentHash then some previous.item else none
    | none => none

def verifyHeaderWorker (batch : List Job) (now : Clock) (index : ℕ) : Verdict :=
  match batch[index]? with
  | none => .ok ()
  | some job => match workerParent chain batch index job with
    | none => .error .unknownAncestor
    | some parent => if Known chain job then .ok () else verifyAgainst now job parent

instance inhabitedClock : Inhabited Clock := ⟨⟨0, by norm_num⟩⟩

/-- The workers and the dispatcher: `min procs n` workers, each with room for a report. -/
def VerifyStep (procs : ℕ) (batch : List Job) :
    Reorder.State Clock Verdict → Reorder.State Clock Verdict → Prop :=
  Reorder.Step batch.length (min procs batch.length) (verifyHeaderWorker chain batch)

/-- The workers before they start. -/
def verifyStart (procs : ℕ) (batch : List Job) : Reorder.State Clock Verdict :=
  Reorder.start (min procs batch.length) default (.ok ())

/-- A run to its end; the clocks are what the workers read.  When faking, or without headers, no
worker is started. -/
def Delivers (fake : Bool) (chain : Reader) (procs : ℕ) (batch : List Job) (clocks : ℕ → Clock)
    (results : List Verdict) : Prop :=
  if fake = true ∨ batch = [] then results = replicate batch.length (.ok ())
  else ∃ t, Relation.ReflTransGen (VerifyStep chain procs batch) (verifyStart procs batch) t ∧
    (∀ u, ¬ VerifyStep chain procs batch t u) ∧ t.readings = clocks ∧ t.delivered = results

/-- The answer to a header. -/
def verdict (fake : Bool) (chain : Reader) (batch : List Job) (now : Clock) (index : ℕ) : Verdict :=
  if fake then .ok () else verifyHeaderWorker chain batch now index

theorem Delivers.results_eq {fake : Bool} {chain : Reader} {procs : ℕ} {batch : List Job}
    {clocks : ℕ → Clock} {results : List Verdict} (someone : 0 < procs)
    (h : Delivers fake chain procs batch clocks results) :
    results = (range batch.length).map fun i => verdict fake chain batch (clocks i) i := by
  unfold Delivers at h
  split_ifs at h with idle
  · rw [h]
    rcases idle with rfl | rfl <;> simp [verdict, map_const']
  · rw [not_or, Bool.not_eq_true] at idle
    obtain ⟨rfl, nonempty⟩ := idle
    obtain ⟨t, ran, finished, rfl, rfl⟩ := h
    have pos : 0 < min procs batch.length := lt_min someone (length_pos_iff.2 nonempty)
    simpa [verdict] using Reorder.delivers_all pos pos ran finished

/-! ## Batches and the chain -/

/-- A chain that finds headers under their own hash and number. -/
structure HeaderChain where
  getHeader : Reader
  found : ∀ {hash number x}, getHeader hash number = some x → x.hash = hash ∧ x.number64 = number

/-- The chain with the headers before. -/
def extended (preceding : List HashedHeader) : Reader := fun hash number =>
  (preceding.find? fun x => x.hash = hash ∧ x.number64 = number).or (chain hash number)

/-- The headers before index `i`. -/
def preceding (batch : List Job) (i : ℕ) : List HashedHeader := (batch.take i).map Job.item

/-- Each header is the parent of the next. -/
def Linked (batch : List Job) : Prop :=
  batch.IsChain fun previous job => previous.item.hash = job.item.header.parentHash

/-- Headers of the chain and the batch with one hash are the same. -/
def Distinct (chain : HeaderChain) (batch : List Job) : Prop :=
  ∀ x y, (x ∈ batch.map Job.item ∨ ∃ hash number, chain.getHeader hash number = some x) →
    (y ∈ batch.map Job.item ∨ ∃ hash number, chain.getHeader hash number = some y) →
    x.hash = y.hash → x = y

/-- When the header at `i` gets the result of `VerifyHeader` in a batch. -/
def Comparable (fake : Bool) (chain : Reader) (now : Clock) (batch : List Job) (i : ℕ) (job : Job) :
    Prop :=
  if fake then verifySingle (extended chain (preceding batch i)) now job = .ok ()
  else match (preceding batch i).getLast? with
    | none => Known chain job → (parentOf chain job).isSome
    | some previous => Known chain job ∨
      if job.item ∈ preceding batch i then verifyAgainst now job previous = .ok ()
      else previous.number64 = job.item.number64 - 1

section Compare

variable {chain : HeaderChain} {batch : List Job} {now : Clock} {i : ℕ} {job previous : Job}
  {x : HashedHeader}

theorem mem_batch_of_mem_preceding (h : x ∈ preceding batch i) : x ∈ batch.map Job.item := by
  obtain ⟨job, mem, rfl⟩ := mem_map.1 h
  exact mem_map_of_mem (mem_of_mem_take mem)

theorem extended_eq (distinct : Distinct chain batch) (mem : x ∈ batch.map Job.item) (number : UInt64) :
    extended chain.getHeader (preceding batch i) x.hash number =
      if x ∈ preceding batch i ∧ x.number64 = number then some x
        else chain.getHeader x.hash number := by
  unfold extended
  cases hf : (preceding batch i).find? fun y => y.hash = x.hash ∧ y.number64 = number with
  | none =>
    rw [find?_eq_none] at hf
    rw [if_neg fun h => hf x h.1 (by simp [h.2]), none_or]
  | some y =>
    have hit := find?_some hf
    simp only [decide_eq_true_eq] at hit
    have same : y = x :=
      distinct y x (.inl (mem_batch_of_mem_preceding (mem_of_find?_eq_some hf))) (.inl mem) hit.1
    rw [if_pos ⟨same ▸ mem_of_find?_eq_some hf, same ▸ hit.2⟩, same, some_or]

theorem known_extended (distinct : Distinct chain batch) (mem : job.item ∈ batch.map Job.item) :
    Known (extended chain.getHeader (preceding batch i)) job =
      (Known chain.getHeader job || decide (job.item ∈ preceding batch i)) := by
  rw [Known, extended_eq distinct mem, Known]
  by_cases h : job.item ∈ preceding batch i <;> simp [h]

theorem parentOf_extended (distinct : Distinct chain batch) (before : previous.item ∈ preceding batch i)
    (link : previous.item.hash = job.item.header.parentHash) :
    parentOf (extended chain.getHeader (preceding batch i)) job =
      if previous.item.number64 = job.item.number64 - 1 then some previous.item else none := by
  have mem := mem_batch_of_mem_preceding before
  rw [parentOf, ← link, extended_eq distinct mem]
  split_ifs with both next next
  · rfl
  · exact absurd both.2 next
  · exact absurd ⟨before, next⟩ both
  · cases hc : chain.getHeader previous.item.hash (job.item.number64 - 1) with
    | none => rfl
    | some y =>
      obtain ⟨hash, number⟩ := chain.found hc
      have same : y = previous.item := distinct y _ (.inr ⟨_, _, hc⟩) (.inl mem) hash
      exact absurd (same ▸ number) next

theorem verifyAgainst_ne_unknownAncestor (now : Clock) (job : Job) (parent : HashedHeader) :
    verifyAgainst now job parent ≠ .error .unknownAncestor := by
  unfold verifyAgainst
  cases verifyHeader now job.item.header parent.header false job.withSeal <;> simp [Except.mapError]

theorem worker_zero (chain : HeaderChain) (now : Clock) (hi : batch[0]? = some job) :
    verifyHeaderWorker chain.getHeader batch now 0 = verifySingle chain.getHeader now job ↔
      (Known chain.getHeader job → (parentOf chain.getHeader job).isSome) := by
  simp only [verifyHeaderWorker, workerParent, hi, verifySingle, if_pos]
  cases Known chain.getHeader job <;> cases parentOf chain.getHeader job <;> simp

theorem worker_succ (chain : HeaderChain) (now : Clock) (linked : Linked batch)
    (hp : batch[i]? = some previous) (hi : batch[i + 1]? = some job) :
    previous.item.hash = job.item.header.parentHash ∧
      verifyHeaderWorker chain.getHeader batch now (i + 1) =
        if Known chain.getHeader job then .ok () else verifyAgainst now job previous.item := by
  have link : previous.item.hash = job.item.header.parentHash := by
    obtain ⟨bound, rfl⟩ := List.getElem?_eq_some_iff.1 hi
    obtain ⟨_, rfl⟩ := List.getElem?_eq_some_iff.1 hp
    exact isChain_iff_getElem.1 linked i bound
  simp [verifyHeaderWorker, workerParent, hi, hp, link]

theorem verdict_eq_iff (fake : Bool) (linked : Linked batch) (distinct : Distinct chain batch)
    (hi : batch[i]? = some job) : verdict fake chain.getHeader batch now i =
        verifySingle (extended chain.getHeader (preceding batch i)) now job ↔
      Comparable fake chain.getHeader now batch i job := by
  cases fake with
  | true => simp [verdict, Comparable, eq_comm]
  | false =>
    cases i with
    | zero =>
      have alone : extended chain.getHeader (preceding batch 0) = chain.getHeader := by
        funext hash number
        simp [extended, preceding]
      rw [alone]
      simpa [verdict, Comparable, preceding] using worker_zero chain now hi
    | succ i =>
      obtain ⟨bound, -⟩ := List.getElem?_eq_some_iff.1 hi
      obtain ⟨previous, hp⟩ : ∃ previous, batch[i]? = some previous :=
        ⟨batch[i], getElem?_eq_getElem (by omega)⟩
      obtain ⟨link, worker⟩ := worker_succ chain now linked hp hi
      have last : preceding batch (i + 1) = preceding batch i ++ [previous.item] := by
        simp [preceding, take_add_one, hp]
      have before : previous.item ∈ preceding batch (i + 1) := by simp [last]
      have mem : job.item ∈ batch.map Job.item := mem_map_of_mem (mem_of_getElem? hi)
      have apart := verifyAgainst_ne_unknownAncestor now job previous.item
      have condition : Comparable false chain.getHeader now batch (i + 1) job ↔
          Known chain.getHeader job ∨ if job.item ∈ preceding batch (i + 1) then
            verifyAgainst now job previous.item = .ok ()
          else previous.item.number64 = job.item.number64 - 1 := by
        simp [Comparable, last]
      rw [condition, verdict, worker, verifySingle, known_extended distinct mem,
        parentOf_extended distinct before link]
      cases Known chain.getHeader job with
      | true => simp
      | false =>
        by_cases again : job.item ∈ preceding batch (i + 1)
        · simp [again]
        · by_cases next : previous.item.number64 = job.item.number64 - 1 <;> simp [again, next, apart]

end Compare

/-- Every run of `VerifyHeaders` ends, with one result for each header in order; for linked headers
it is what `VerifyHeader` returns after the ones before exactly if the header is `Comparable`. -/
theorem verifyHeaders_iff (fake : Bool) (chain : HeaderChain) {procs : ℕ} (someone : 0 < procs)
    (batch : List Job) : (WellFounded fun t s => VerifyStep chain.getHeader procs batch s t) ∧
      ∀ clocks results, Delivers fake chain.getHeader procs batch clocks results →
        results = (range batch.length).map (fun i => verdict fake chain.getHeader batch (clocks i) i) ∧
        (Linked batch → Distinct chain batch → ∀ i job, batch[i]? = some job →
          (results[i]? =
            some (verifySingle (extended chain.getHeader (preceding batch i)) (clocks i) job) ↔
            Comparable fake chain.getHeader (clocks i) batch i job)) := by
  refine ⟨Reorder.wellFounded_step .., fun clocks results delivers => ?_⟩
  have inOrder := delivers.results_eq someone
  refine ⟨inOrder, fun linked distinct i job hi => ?_⟩
  obtain ⟨bound, -⟩ := List.getElem?_eq_some_iff.1 hi
  have here : results[i]? = some (verdict fake chain.getHeader batch (clocks i) i) := by
    simp [inOrder, getElem?_range bound]
  rw [here, Option.some_inj]
  exact verdict_eq_iff fake linked distinct hi

/-! ## The genesis block and its descendants -/

theorem delivers_single (job : Job) (now : Clock) :
    Delivers false chain 1 [job] (Function.update (fun _ => default) 0 now)
      [verifyHeaderWorker chain [job] now 0] := by
  have handed := Relation.ReflTransGen.single
    (Reorder.Step.hand (s := verifyStart 1 [job]) [] [] Nat.one_pos rfl : VerifyStep chain 1 [job] _ _)
  exact ⟨_, ((handed.tail (.work [] [] 0 now rfl)).tail (.report [] [] 0 rfl Nat.one_pos)).tail
    (.collect 0 [] rfl Nat.one_pos), fun u => Reorder.not_step 1 rfl rfl le_rfl, rfl, rfl⟩

/-- Two workers, of which the second is done first. -/
theorem delivers_pair (first second : Job) (now : Clock) :
    Delivers false chain 2 [first, second]
      (Function.update (Function.update (fun _ => default) 1 now) 0 now)
      [verifyHeaderWorker chain [first, second] now 0,
        verifyHeaderWorker chain [first, second] now 1] := by
  have handed :=
  (Relation.ReflTransGen.single (Reorder.Step.hand (s := verifyStart 2 [first, second]) []
    [.idle] Nat.two_pos rfl : VerifyStep chain 2 [first, second] _ _)).tail (.hand [.busy 0] []
      Nat.one_lt_two rfl)
  have later :=
    ((handed.tail (.work [.busy 0] [] 1 now rfl)).tail (.report [.busy 0] [] 1 rfl Nat.two_pos)).tail
    (.collect 1 [] rfl Nat.two_pos)
  exact ⟨_, ((later.tail (.work [] [.idle] 0 now rfl)).tail (.report [] [.idle] 0 rfl Nat.two_pos)).tail
    (.collect 0 [] rfl Nat.two_pos), fun u => Reorder.not_step 2 rfl rfl le_rfl, rfl, rfl⟩

/-- A chain with a genesis header. -/
def sampleChain : HeaderChain where
  getHeader := fun hash number => if hash = 1 ∧ number = 0 then some ⟨sampleGenesis, 1⟩ else none
  found := by
    intro hash number x h
    split_ifs at h with here
    cases h
    exact ⟨here.1.symm, here.2.symm⟩

/-- A header that follows the one with hash `number`, ten seconds later. -/
def sampleJob (number : ℕ) : Job where
  item :=
    ⟨{ sampleGenesis with parentHash := number, number := number, time := 10 * number }, number + 1⟩
  withSeal := true

theorem verifyHeaders_children : ∃ clocks,
    Delivers false sampleChain.getHeader 2 [sampleJob 1, sampleJob 2] clocks [.ok (), .ok ()] ∧
      ([.ok (), .ok ()] : List Verdict)[1]? = some (verifySingle
        (extended sampleChain.getHeader [(sampleJob 1).item]) (clocks 1) (sampleJob 2)) := by
  have delivers := delivers_pair sampleChain.getHeader (sampleJob 1) (sampleJob 2) sampleClock
  have distinct : Distinct sampleChain [sampleJob 1, sampleJob 2] := by
    have hashes : ∀ x, (x ∈ [sampleJob 1, sampleJob 2].map Job.item ∨
        ∃ hash number, sampleChain.getHeader hash number = some x) →
        x = ⟨sampleGenesis, 1⟩ ∨ x = (sampleJob 1).item ∨ x = (sampleJob 2).item := by
      rintro x (mem | ⟨hash, number, h⟩)
      · exact .inr (by simpa using mem)
      · rw [sampleChain] at h
        dsimp only at h
        split_ifs at h
        exact .inl (some.inj h).symm
    intro x y hx hy
    rcases hashes x hx with rfl | rfl | rfl <;> rcases hashes y hy with rfl | rfl | rfl <;>
      simp [sampleJob]
  exact ⟨_, delivers,
    (((verifyHeaders_iff false sampleChain Nat.two_pos [sampleJob 1, sampleJob 2]).2 _ _ delivers).2
    (by simp [Linked, sampleJob]) distinct 1 (sampleJob 2) rfl).2 (.inr (by decide))⟩

theorem verifyHeaders_genesis : Delivers false sampleChain.getHeader 1 [⟨⟨sampleGenesis, 1⟩, false⟩]
        (Function.update (fun _ => default) 0 sampleClock) [.error .unknownAncestor] ∧
      verifySingle sampleChain.getHeader sampleClock ⟨⟨sampleGenesis, 1⟩, false⟩ = .ok () :=
  ⟨delivers_single sampleChain.getHeader ⟨⟨sampleGenesis, 1⟩, false⟩ sampleClock, rfl⟩

end JuChain.Engine
