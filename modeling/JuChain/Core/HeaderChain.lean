import JuChain.Core.Canonical

/-!
# The header chain

`core/headerchain.go`.  `WriteHeader` records a header and its total difficulty.  A header that
takes over deletes the numbers above it up to the first gap, and overwrites those below it down to
the first that is right already.  The mapping has no holes, so both loops go far enough
(`headers_canonical`).
-/

namespace JuChain

open Function Option

/-- A header is kept as a block, of which the hash and the header are read. -/
structure HeaderChain where
  db : Database
  currentHeader : Block

namespace HeaderChain

/-- Delete the numbers from `i` on, as long as they are assigned. -/
def deleteFrom : ℕ → ℕ → (ℕ → Option Hash) → ℕ → Option Hash
  | 0, _, m => m
  | fuel + 1, i, m => if m i = none then m else deleteFrom fuel (i + 1) (Index.erase m i)

/-- The loop of `WriteHeader` over the ancestors. -/
def overwrite : ℕ → Block → Database → Option Database
  | 0, _, _ => none
  | fuel + 1, b, db =>
    if db.getCanonicalHash (b.number - 1) = some b.parentHash then some db
    else (db.getParent b).bind fun headHeader =>
      overwrite fuel headHeader (db.writeCanonicalHash b.parentHash (b.number - 1))

/-- The header and its total difficulty are written in any case. -/
def record (hc : HeaderChain) (header : Block) (td : ℤ) : Database :=
  (hc.db.writeTd header.hash header.number td).writeBlock header

/-- `none` is a panic. -/
def writeHeader (hc : HeaderChain) (header : Block) (coin : Bool) :
    Option (HeaderChain × WriteStatus × Option ChainError) :=
  match hc.db.getParentTd header with
  | none => some (hc, .nonStatTy, some .unknownAncestor)
  | some ptd =>
    (hc.db.getTd hc.currentHeader.hash hc.currentHeader.number).bind fun localTd =>
      let externTd := header.difficulty + ptd
      let db := hc.record header externTd
      if externTd > localTd ∨ externTd = localTd ∧ coin then
        let db := { db with
          canonical := deleteFrom (hc.currentHeader.number + 1) (header.number + 1) db.canonical }
        (overwrite header.number header db).map fun db =>
          (⟨db.writeCanonicalHash header.hash header.number, header⟩, .canonStatTy, none)
      else some (⟨db, hc.currentHeader⟩, .sideStatTy, none)

/-- The chain of blocks with the same records. -/
def chain (hc : HeaderChain) : BlockChain :=
  ⟨hc.db, hc.currentHeader, hc.currentHeader.header, hc.currentHeader⟩

/-- `NewHeaderChain` over a genesis header. -/
def new (genesis : Block) : HeaderChain := ⟨(BlockChain.commit genesis).db, genesis⟩

end HeaderChain

/-- `WriteHeader` as a step over a tree. -/
def BlockTree.writeHeader (T : BlockTree) (hc : HeaderChain) (call : T.Call) : Option HeaderChain :=
  (hc.writeHeader call.block call.coin).map (·.1)

namespace HeaderChain

variable {T : BlockTree} {hc : HeaderChain} {b p : Block} {db : Database}

/-! ## The loops -/

theorem deleteFrom_apply {fuel i top : ℕ} {m : ℕ → Option Hash}
    (assigned : ∀ n, i ≤ n → ((m n).isSome ↔ n ≤ top)) (enough : top < i + fuel) (n : ℕ) :
    deleteFrom fuel i m n = if i ≤ n then none else m n := by
  induction fuel generalizing i m with
  | zero =>
    split_ifs with h
    · exact not_isSome_iff_eq_none.1 fun some => absurd ((assigned n h).1 some) (by omega)
    · rfl
  | succ fuel ih =>
    unfold deleteFrom
    split_ifs with gap h h
    · have := assigned i le_rfl
      simp only [gap, isSome_none, Bool.false_eq_true, false_iff] at this
      exact not_isSome_iff_eq_none.1 fun some => absurd ((assigned n h).1 some) (by omega)
    · rfl
    · rw [ih (fun k hk => ?_) (by omega)]
      · split_ifs with later
        · rfl
        · obtain rfl : n = i := by omega
          exact update_self ..
      · rw [Index.erase, update_of_ne (by omega)]
        exact assigned k (by omega)
    · rw [ih (fun k hk => ?_) (by omega), if_neg (by omega), Index.erase, update_of_ne (by omega)]
      rw [Index.erase, update_of_ne (by omega)]
      exact assigned k (by omega)

/-- Below `k`, a branch that is assigned stays assigned towards the genesis block. -/
def Linked (T : BlockTree) (m : ℕ → Option Hash) (k : ℕ) : Prop :=
  ∀ {a q}, T.forest.Parent a q → a.number < k → m a.number = some a.hash → m q.number = some q.hash

theorem Linked.anc {m : ℕ → Option Hash} {k : ℕ} (linked : Linked T m k) {a x : Block}
    (lt : a.number < k)
    (ha : m a.number = some a.hash) (anc : T.forest.Anc x a) : m x.number = some x.hash := by
  induction anc with
  | refl => exact ha
  | tail below parent ih =>
    have le := Forest.Anc.height_le below
    exact linked parent (lt_of_le_of_lt le lt) ih

theorem overwrite_eq (db : Database) {fuel : ℕ}
    (rooted : ∀ {x}, db.Has x → x = T.genesis ∨ ∃ q, T.forest.Parent x q ∧ db.Has q)
    (parent : T.forest.Parent b p) (has : db.Has p) (linked : Linked T db.canonical b.number)
    (genesis : db.canonical 0 = some T.genesis.hash) (enough : b.number ≤ fuel) :
    ∃ m, overwrite fuel b db = some { db with canonical := m } ∧
      (∀ x, T.forest.Anc x p → m x.number = some x.hash) ∧ ∀ n, b.number ≤ n →
        m n = db.canonical n := by
  have number := BlockTree.number_of_parent parent
  induction fuel generalizing b p db with
  | zero => omega
  | succ fuel ih =>
    unfold overwrite
    rw [← parent.2.2.1, number, Nat.add_sub_cancel]
    split_ifs with right
    · exact ⟨_, rfl, fun x hx => linked.anc (by omega) right hx, fun _ _ => rfl⟩
    · rcases rooted has with rfl | ⟨q, hq, hasq⟩
      · rw [T.genesis_number] at right
        exact absurd genesis right
      · have below := BlockTree.number_of_parent hq
        have kept (n : ℕ) (hn : n ≠ p.number) :
            (db.writeCanonicalHash p.hash p.number).canonical n = db.canonical n :=
          update_of_ne hn ..
        obtain ⟨m, run, new, old⟩ := ih (db.writeCanonicalHash p.hash p.number) rooted hq hasq
          (fun {a q} ha lt h => by
            have := BlockTree.number_of_parent ha
            rw [kept _ (by omega)] at h ⊢
            exact linked ha (by omega) h)
          (by rwa [kept 0 (by omega)]) (by omega) below
        rw [Database.getParent_eq parent, has]
        refine ⟨m, run, fun x hx => ?_, fun n hn => ?_⟩
        · rcases (Forest.anc_iff_of_parent hq).1 hx with rfl | hx
          · exact (old _ le_rfl).trans (update_self ..)
          · exact new x hx
        · rw [old n (by omega), kept n (by omega)]

/-! ## Every call -/

/-- What every write keeps. -/
structure Good (T : BlockTree) (hc : HeaderChain) : Prop where
  sound : Sound T hc.chain
  weighed : Weighed T hc.chain
  consistent : Consistent T hc.chain

theorem Good.onChain (good : Good T hc) : OnChain T hc.chain := by
  intro a ha
  obtain ⟨a', ha', number, h⟩ := good.consistent.below a.number ha.height_le
  obtain rfl := ha'.unique ha number
  exact h

theorem Good.isSome_iff (good : Good T hc) (n : ℕ) :
    (hc.db.canonical n).isSome ↔ n ≤ hc.currentHeader.number := by
  constructor
  · intro found
    by_contra above
    have gap : hc.db.canonical n = none := good.consistent.above n (not_le.1 above)
    simp [gap] at found
  · intro le
    obtain ⟨a, -, -, h⟩ := good.consistent.below n le
    exact isSome_iff_exists.2 ⟨_, h⟩

theorem Good.linked (good : Good T hc) (k : ℕ) : Linked T hc.db.canonical k := by
  intro a q parent _ h
  have le : a.number ≤ hc.currentHeader.number := (good.isSome_iff _).1 (by rw [h]; rfl)
  obtain ⟨a', ha', -, h'⟩ := good.consistent.below a.number le
  have same : a'.hash = a.hash := some.inj (h'.symm.trans h)
  have mem := good.sound.mem (good.sound.has_of_anc good.sound.head ha')
  rw [T.hash_inj a' mem a parent.1 same] at ha'
  exact good.onChain q ((Forest.Anc.of_parent parent).trans ha')

theorem Good.reassign (good : Good T hc) (parent : T.forest.Parent b p) (td : ℤ)
    (stored : Sound T (chain ⟨hc.record b td, b⟩)) :
    ∃ m, overwrite b.number b { hc.record b td with
        canonical := deleteFrom (hc.currentHeader.number + 1) (b.number + 1) hc.db.canonical } =
          some { hc.record b td with canonical := m } ∧
      (∀ x, T.forest.Anc x p → m x.number = some x.hash) ∧ ∀ n, b.number < n → m n = none := by
  have cut (n : ℕ) := deleteFrom_apply (fun n _ => good.isSome_iff n)
    (show hc.currentHeader.number < b.number + 1 + (hc.currentHeader.number + 1) by omega) n
  have kept (n : ℕ) (hn : n ≤ b.number) := (cut n).trans (if_neg (by omega))
  have linked : Linked T (deleteFrom (hc.currentHeader.number + 1) (b.number + 1) hc.db.canonical)
      b.number := by
    intro a q ha lt h
    have := BlockTree.number_of_parent ha
    rw [kept _ (by omega)] at h ⊢
    exact good.linked b.number ha lt h
  have genesis := (kept 0 (Nat.zero_le _)).trans
    (T.genesis_number ▸ good.onChain _ (good.sound.genesis_anc good.sound.head))
  obtain ⟨m, run, below, old⟩ := overwrite_eq { hc.record b td with
      canonical := deleteFrom (hc.currentHeader.number + 1) (b.number + 1) hc.db.canonical }
    stored.rooted parent (stored.has_of_anc stored.head (.of_parent parent)) linked genesis le_rfl
  refine ⟨m, run, below, fun n hn => ?_⟩
  rw [old n hn.le]
  exact (cut n).trans (if_pos hn)

theorem Good.write (good : Good T hc) (call : T.Call) : ∃ hc', T.writeHeader hc call = some hc' ∧
    Good T hc' ∧ Advances hc.chain call.block hc'.chain := by
  obtain ⟨b, mem, coin⟩ := call
  unfold BlockTree.writeHeader writeHeader
  cases hptd : hc.db.getParentTd b with
  | none =>
    obtain ⟨td, htd⟩ := good.sound.exists_td good.sound.head
    exact ⟨hc, rfl, good, fun x => by simp [chain, hptd], td, td, htd, htd, le_rfl⟩
  | some ptd =>
    obtain ⟨p, parent, has, hp⟩ := good.sound.parent_of_td mem hptd
    obtain ⟨localTd, hlocal⟩ := good.sound.exists_td good.sound.head
    have recorded (m : ℕ → Option Hash) (head : Block) : Recorded T hc.chain
        (chain ⟨{ hc.record b (b.difficulty + ptd) with canonical := m }, head⟩) b p ptd :=
      ⟨parent, has, hp, rfl, rfl⟩
    rw [show hc.db.getTd hc.currentHeader.hash hc.currentHeader.number = some localTd from hlocal]
    dsimp only [Option.bind_some]
    split_ifs with wins
    · obtain ⟨m, run, below, above⟩ := good.reassign parent (b.difficulty + ptd)
        ((recorded hc.db.canonical b).sound good.sound (.inr rfl))
      refine ⟨_, congrArg (Option.map _) (congrArg (Option.map _) run), ?_⟩
      have recorded := recorded (Index.put m (b.number, b.hash)) b
      have sound := recorded.sound good.sound (.inr rfl)
      have assigned (n : ℕ) : Index.put m (b.number, b.hash) n = if n = b.number then some b.hash
        else m n :=
        Index.put_apply ..
      have gains : localTd ≤ b.difficulty + ptd := by
        rcases wins with wins | wins <;> omega
      refine ⟨⟨sound, ?_, fun n hn => OnChain.below ?_ sound hn, fun n hn => ?_⟩,
        recorded.stores good.sound, localTd, _, hlocal, recorded.getTd_self, gains⟩
      · refine recorded.weighed good.weighed good.sound recorded.getTd_self le_rfl fun htd => ?_
        rwa [← Option.some.inj (hlocal.symm.trans htd)]
      · intro a ha
        refine (assigned _).trans ?_
        split_ifs with same
        · rw [ha.eq_of_height_le same.ge]
          rfl
        · rcases (Forest.anc_iff_of_parent parent).1 ha with rfl | ha
          · exact absurd rfl same
          · exact below a ha
      · exact (assigned _).trans ((if_neg (ne_of_gt hn)).trans (above n hn))
    · refine ⟨_, rfl, ?_⟩
      have recorded := recorded hc.db.canonical hc.currentHeader
      have head := (recorded.tdOf_of_has good.weighed good.sound good.sound.head).trans hlocal
      refine ⟨⟨recorded.sound good.sound (.inl rfl), ?_, good.consistent.below, good.consistent.above⟩,
        recorded.stores good.sound, localTd, localTd, hlocal, head, le_rfl⟩
      refine recorded.weighed good.weighed good.sound head ?_ fun htd => ?_
      · by_contra gt
        exact wins (.inl (not_le.1 gt))
      · exact (Option.some.inj (htd.symm.trans hlocal)).le

/-- No call panics, and each stores its header if the parent is known.  Then exactly the ancestors
of the current header are assigned to their numbers, and no header is heavier. -/
theorem headers_canonical (T : BlockTree) (calls : List T.Call) :
    (Runs.run T.writeHeader (new T.genesis) calls).isSome ∧
      Runs.Always T.writeHeader (fun hc => Consistent T hc.chain ∧ HeaviestHead T hc.chain)
        (new T.genesis) calls ∧
      Runs.Throughout T.writeHeader (fun hc call => ∃ hc', T.writeHeader hc call = some hc' ∧
        Advances hc.chain call.block hc'.chain) (new T.genesis) calls := by
  have start : Good T (new T.genesis) := ⟨sound_commit T, weighed_commit T, consistent_commit T⟩
  have keeps (hc : HeaderChain) (call : T.Call) (hc' : HeaderChain) (good : Good T hc)
      (h : T.writeHeader hc call = some hc') : Good T hc' := by
    obtain ⟨_, h', good', -⟩ := good.write call
    rwa [some.inj (h.symm.trans h')]
  refine ⟨?_, ?_, ?_⟩
  · refine (Runs.run_isSome_iff_throughout (C := fun _ _ => True) keeps (fun hc call good => ?_)
      start calls).2 (Runs.throughout_of_invariant keeps (fun _ _ _ => trivial) start calls)
    obtain ⟨_, h, -⟩ := good.write call
    simp [h]
  · exact Runs.always_of_invariant keeps
      (fun hc good => And.intro good.consistent (good.weighed.heaviestHead good.sound)) start calls
  · refine Runs.throughout_of_invariant keeps (fun hc call good => ?_) start calls
    obtain ⟨hc', h, -, advances⟩ := good.write call
    exact ⟨hc', h, advances⟩

end HeaderChain

end JuChain
