import JuChain.Trie.Sync

/-!
# The invariant of trie synchronisation

Between two steps of the scheduler a request waits for as many entries as name it as a parent, every
node that has come in waits for what it refers to, and the membatch is closed under references.
Scheduling a request and moving one to the membatch keep this (`Inv.schedule`, `Inv.commit`).
-/

namespace JuChain.Trie

open Slices List Keyed

variable {κ : Type} (s : Sync κ)

/-! ## References -/

/-- How an entry is read: as a node, with the callback for leaves, or as it is. -/
inductive Kind (κ : Type) where
  | trie (callback : Option κ)
  | raw

/-- A node that is referred to. -/
structure Ref (κ : Type) where
  hash : Hash
  kind : Kind κ

/-- What a callback asks for, if it is not the empty trie or the empty code. -/
def Action.ref : Action κ → Option (Ref κ)
  | .subTrie root _ callback => if root = emptyRoot then none else some ⟨root, .trie callback⟩
  | .rawEntry hash _ => if hash = emptyState then none else some ⟨hash, .raw⟩

/-- The children. -/
def Node.childNodes : Node → List Node
  | .short _ val _ => [val]
  | .full children _ => (List.finRange 17).map children
  | _ => []

section References

variable (leaf : LeafCallback κ) (callback : Option κ)

/-- What a leaf refers to. -/
def leafRefs (v : Bytes) : List (Ref κ) :=
  callback.elim [] fun k => (leaf k v).1.filterMap Action.ref

/-- What a child of a node refers to, if it is not an embedded node. -/
def childRefs : Node → List (Ref κ)
  | .hash h => [⟨h, .trie callback⟩]
  | .value v => leafRefs leaf callback v
  | _ => []

/-- What a node refers to. -/
def directRefs (n : Node) : List (Ref κ) := n.childNodes.flatMap (childRefs leaf callback)

/-- All that a node refers to, also from embedded nodes. -/
def refs : Node → List (Ref κ)
  | .nil => []
  | .short _ val _ => refs val
  | .full children _ => (List.finRange 17).flatMap fun i => refs (children i)
  | .hash h => [⟨h, .trie callback⟩]
  | .value v => leafRefs leaf callback v

end References

/-! ## The trie and the database -/

/-- What is synchronised.  `content` gives the bytes with a hash, of which there is one string at
most. -/
structure World (κ : Type) where
  root : Hash
  callback : Option κ
  leaf : LeafCallback κ
  content : Hash → Option Bytes
  database : Hash → Option Bytes

namespace World

variable (w : World κ)

/-- The node with the hash. -/
def Holds (h : Hash) (n : Node) : Prop := ∃ d, w.content h = some d ∧ decodeNode (some h) d 0 = .ok n

/-- What is reached from the root. -/
inductive Reachable : Ref κ → Prop where
  | root (h : w.root ≠ emptyRoot) : Reachable ⟨w.root, .trie w.callback⟩
  | child {h : Hash} {callback : Option κ} {n : Node} {ref : Ref κ}
      (reachable : Reachable ⟨h, .trie callback⟩) (holds : w.Holds h n)
      (mem : ref ∈ refs w.leaf callback n) : Reachable ref

/-- What the scheduler relies on of the trie, the callbacks and the database. -/
structure Fair : Prop where
  authentic : ∀ h d, w.database h = some d → w.content h = some d
  /-- A node in the database has everything it refers to there. -/
  full : ∀ h callback n, w.Reachable ⟨h, .trie callback⟩ → (w.database h).isSome → w.Holds h n →
    ∀ ref ∈ refs w.leaf callback n, (w.database ref.hash).isSome
  /-- No hash is reachable in two roles. -/
  roles : ∀ r r', w.Reachable r → w.Reachable r' → r.hash = r'.hash → r = r'
  /-- The zero hash, which stands for a missing parent, is not reachable. -/
  nonzero : ∀ r, w.Reachable r → r.hash ≠ 0
  /-- A callback that fails on a node has not registered anything for it. -/
  failing : ∀ h k n v v', w.Reachable ⟨h, .trie (some k)⟩ → w.Holds h n → Node.value v ∈ n.childNodes →
    Node.value v' ∈ n.childNodes → (w.leaf k v).2 = true → (w.leaf k v').1 = []
  /-- Embedded nodes do not refer to anything. -/
  embedded : ∀ h callback n, w.Reachable ⟨h, .trie callback⟩ → w.Holds h n →
    ∀ ref ∈ refs w.leaf callback n, ref ∈ directRefs w.leaf callback n

end World

/-- What the request is for. -/
def Request.kind (q : Request κ) : Kind κ := if q.raw then .raw else .trie q.callback

namespace Sync

/-- In the batch, or in the database. -/
def get (h : Hash) : Option Bytes := (s.batch h).or (s.database h)

/-- The node is stored. -/
def Present (h : Hash) : Prop := (s.get h).isSome

/-- What is in the membatch or new in the database belongs to the trie, and all that it refers to is
there too. -/
def Closed (w : World κ) (s : Sync κ) : Prop :=
  ∀ h, s.Present h → w.database h = none → s.get h = w.content h ∧ (∃ kind, w.Reachable ⟨h, kind⟩) ∧
    ∀ callback n, w.Reachable ⟨h, .trie callback⟩ → w.Holds h n →
      ∀ ref ∈ refs w.leaf callback n, s.Present ref.hash

/-- When nothing is pending, everything reachable is there. -/
def Complete (w : World κ) (s : Sync κ) : Prop :=
  s.pending = 0 → ∀ ref, w.Reachable ref → s.Present ref.hash

/-- How often the requests name `p` as a parent. -/
def references (p : Hash) : ℕ := (s.requests.map fun r => r.parents.count p).sum

/-- `p` will be told when the entry `h` is there, or it is there already. -/
def Awaits (p h : Hash) : Prop :=
  s.Present h ∨ ∃ r ∈ s.requests, r.hash = h ∧ p ∈ r.parents

/-- What holds of the entries in the membatch and the database. -/
structure Safe (w : World κ) (s : Sync κ) : Prop where
  ordered : ∀ h, h ∈ s.order ↔ (s.batch h).isSome
  content : ∀ h d, s.get h = some d → w.content h = some d
  kept : ∀ h, (w.database h).isSome → s.Present h
  stored : ∀ h, s.Present h → w.database h = none → ∃ kind, w.Reachable ⟨h, kind⟩
  closed : ∀ h callback n, w.Reachable ⟨h, .trie callback⟩ → w.database h = none → s.Present h →
    w.Holds h n → ∀ ref ∈ refs w.leaf callback n, s.Present ref.hash

/-- `debt` lists the notifications still owed, each for a dependency that is counted and belongs to
no request.  The request `hole` is being processed. -/
structure Inv (w : World κ) (s : Sync κ) (debt : List Hash) (hole : Option Hash) : Prop extends
    Safe w s where
  distinct : Keyed.Distinct Request.hash s.requests
  root : w.root = emptyRoot ∨ s.Present w.root ∨ ∃ r ∈ s.requests, r.hash = w.root
  reachable : ∀ q ∈ s.requests, w.Reachable ⟨q.hash, q.kind⟩
  counted : ∀ q ∈ s.requests, q.deps = (s.references q.hash + debt.count q.hash : ℕ)
  linked : ∀ q ∈ s.requests, ∀ p ∈ q.parents, ∃ r ∈ s.requests, r.hash = p
  owed : ∀ p ∈ debt, ∃ r ∈ s.requests, r.hash = p
  idle : ∀ q ∈ s.requests, hole ≠ some q.hash → q.data = none → q.deps = 0
  covered : ∀ q ∈ s.requests, hole ≠ some q.hash → ∀ d, q.data = some d →
    w.content q.hash = some d ∧ (q.deps ≠ 0 → ∀ callback n, q.kind = .trie callback → w.Holds q.hash n →
      ∀ ref ∈ refs w.leaf callback n, s.Awaits q.hash ref.hash)

/-! ## What the changes of the requests keep -/

/-- `t` has the entries of `s`, and its requests with perhaps more data, parents and other counts.
-/
structure Extends (s t : Sync κ) : Prop where
  database : t.database = s.database
  batch : t.batch = s.batch
  order : t.order = s.order
  requests : ∀ q ∈ s.requests, ∃ r ∈ t.requests, r.hash = q.hash ∧ r.kind = q.kind ∧
    (∀ d, q.data = some d → r.data = some d) ∧ q.parents ⊆ r.parents

namespace Extends

variable {s t u : Sync κ}

theorem refl (s : Sync κ) : Extends s s :=
  ⟨rfl, rfl, rfl, fun q hq => ⟨q, hq, rfl, rfl, fun _ h => h, fun _ h => h⟩⟩

theorem trans (h : Extends s t) (h' : Extends t u) : Extends s u where
  database := h'.database.trans h.database
  batch := h'.batch.trans h.batch
  order := h'.order.trans h.order
  requests q hq := by
    obtain ⟨r, hr, hash, kind, data, parents⟩ := h.requests q hq
    obtain ⟨r', hr', hash', kind', data', parents'⟩ := h'.requests r hr
    exact ⟨r', hr', hash'.trans hash, kind'.trans kind, fun d hd => data' d (data d hd),
      fun _ hp => parents' (parents hp)⟩

theorem get (h : Extends s t) : t.get = s.get := by
  unfold Sync.get
  rw [h.batch, h.database]

theorem present (h : Extends s t) {x : Hash} : t.Present x ↔ s.Present x := by
  unfold Present
  rw [h.get]

theorem awaits (h : Extends s t) {p x : Hash} (awaits : s.Awaits p x) : t.Awaits p x := by
  obtain present | ⟨q, hq, hash, parent⟩ := awaits
  · exact .inl (h.present.2 present)
  · obtain ⟨r, hr, hash', -, -, parents⟩ := h.requests q hq
    exact .inr ⟨r, hr, hash'.trans hash, parents parent⟩

theorem pending (h : Extends s t) {x : Hash} (pending : ∃ r ∈ s.requests, r.hash = x) :
    ∃ r ∈ t.requests, r.hash = x := by
  obtain ⟨q, hq, hash⟩ := pending
  obtain ⟨r, hr, hash', -⟩ := h.requests q hq
  exact ⟨r, hr, hash'.trans hash⟩

theorem safe {w : World κ} (h : Extends s t) (safe : Safe w s) : Safe w t where
  ordered x := by
    rw [h.order, h.batch]
    exact safe.ordered x
  content x d found := safe.content x d (by rw [← h.get]; exact found)
  kept x here := h.present.2 (safe.kept x here)
  stored x present := safe.stored x (h.present.1 present)
  closed x callback n reachable new present holds ref mem :=
    h.present.2 (safe.closed x callback n reachable new (h.present.1 present) holds ref mem)

theorem root {w : World κ} (h : Extends s t)
    (root : w.root = emptyRoot ∨ s.Present w.root ∨ ∃ r ∈ s.requests, r.hash = w.root) :
    w.root = emptyRoot ∨ t.Present w.root ∨ ∃ r ∈ t.requests, r.hash = w.root :=
  root.imp_right (Or.imp h.present.2 h.pending)

theorem update {q x : Request κ} (distinct : Keyed.Distinct Request.hash s.requests)
    (hq : q ∈ s.requests) (hash : x.hash = q.hash) (kind : x.kind = q.kind)
    (data : ∀ d, q.data = some d → x.data = some d) (parents : q.parents ⊆ x.parents) :
    Extends s (s.update x) where
  database := rfl
  batch := rfl
  order := rfl
  requests r hr := by
    by_cases same : r.hash = x.hash
    · obtain rfl := distinct.eq hr hq (same.trans hash)
      exact ⟨x, mem_replace_self hr same, hash, kind, data, parents⟩
    · exact ⟨r, (mem_replace_of_ne same).2 hr, rfl, rfl, fun _ h => h, fun _ h => h⟩

theorem setDeps {q : Request κ} (distinct : Keyed.Distinct Request.hash s.requests)
    (hq : q ∈ s.requests) (deps : ℤ) : Extends s (s.update { q with deps := deps }) :=
  .update distinct hq rfl rfl (fun _ h => h) fun _ h => h

end Extends

variable {w : World κ} {s : Sync κ} {debt : List Hash} {hole : Option Hash} {d : Bytes} {h : Hash}

variable {q x c : Request κ}

theorem references_update (distinct : Keyed.Distinct Request.hash s.requests) (hq : q ∈ s.requests)
    (hash : q.hash = x.hash) (p : Hash) :
    (s.update x).references p + q.parents.count p = s.references p + x.parents.count p :=
  sum_replace (fun r : Request κ => r.parents.count p) distinct hq hash

/-- What the invariant says of the request `r`. -/
structure Sound (w : World κ) (s : Sync κ) (debt : List Hash) (hole : Option Hash) (r : Request κ) :
    Prop where
  reachable : w.Reachable ⟨r.hash, r.kind⟩
  counted : r.deps = (s.references r.hash + debt.count r.hash : ℕ)
  linked : ∀ p ∈ r.parents, ∃ q ∈ s.requests, q.hash = p
  idle : hole ≠ some r.hash → r.data = none → r.deps = 0
  covered : hole ≠ some r.hash → ∀ d, r.data = some d →
    w.content r.hash = some d ∧ (r.deps ≠ 0 → ∀ callback n, r.kind = .trie callback → w.Holds r.hash n →
      ∀ ref ∈ refs w.leaf callback n, s.Awaits r.hash ref.hash)

variable {r : Request κ} {t : Sync κ} {debt' : List Hash} {hole' : Option Hash}

theorem Inv.sound (inv : Inv w s debt hole) (hr : r ∈ s.requests) : Sound w s debt hole r :=
  ⟨inv.reachable r hr, inv.counted r hr, inv.linked r hr, inv.idle r hr, inv.covered r hr⟩

theorem Sound.extend (sound : Sound w s debt hole r) (ext : Extends s t)
    (counts : t.references r.hash + debt'.count r.hash = s.references r.hash + debt.count r.hash)
    (free : hole' ≠ some r.hash → hole ≠ some r.hash) : Sound w t debt' hole' r where
  reachable := sound.reachable
  counted := by rw [counts]; exact sound.counted
  linked p hp := ext.pending (sound.linked p hp)
  idle ne := sound.idle (free ne)
  covered ne d data := by
    obtain ⟨content, awaits⟩ := sound.covered (free ne) d data
    exact ⟨content, fun deps callback n kind holds ref mem =>
      ext.awaits (awaits deps callback n kind holds ref mem)⟩

theorem Inv.extend (inv : Inv w s debt hole) (ext : Extends s t)
    (distinct : Keyed.Distinct Request.hash t.requests)
    (owed : ∀ p ∈ debt', ∃ r ∈ s.requests, r.hash = p)
    (sound : ∀ r ∈ t.requests, Sound w t debt' hole' r) : Inv w t debt' hole' :=
  { ext.safe inv.toSafe with
    distinct
    root := ext.root inv.root
    reachable := fun r hr => (sound r hr).reachable
    counted := fun r hr => (sound r hr).counted
    linked := fun r hr => (sound r hr).linked
    owed := fun p hp => ext.pending (owed p hp)
    idle := fun r hr => (sound r hr).idle
    covered := fun r hr => (sound r hr).covered }

theorem Inv.setDeps (inv : Inv w s debt hole) (hq : q ∈ s.requests) {debt' : List Hash} {deps : ℤ}
    (count : deps = (s.references q.hash + debt'.count q.hash : ℕ))
    (others : ∀ p ≠ q.hash, debt'.count p = debt.count p) (busy : hole = some q.hash ∨ q.deps ≠ 0) :
    Inv w (s.update { q with deps := deps }) debt' hole := by
  have ext := Extends.setDeps inv.distinct hq deps
  have references (p : Hash) : (s.update { q with deps := deps }).references p = s.references p :=
    Nat.add_right_cancel (references_update (x := { q with deps := deps }) inv.distinct hq rfl p)
  refine inv.extend ext inv.distinct.replace (fun p hp => ?_) fun r hr => ?_
  · by_cases same : p = q.hash
    · exact ⟨q, hq, same.symm⟩
    · exact inv.owed p (count_pos_iff.1 (others p same ▸ count_pos_iff.2 hp))
  · obtain rfl | ⟨hr, ne⟩ := mem_replace hr
    · refine
        { reachable := inv.reachable q hq
          counted := by rw [references]; exact count
          linked := fun p hp => ext.pending (inv.linked q hq p hp)
          idle := fun ne data => absurd (inv.idle q hq ne data) (busy.resolve_left ne)
          covered := fun ne d data => ?_ }
      obtain ⟨content, awaits⟩ := inv.covered q hq ne d data
      exact ⟨content, fun _ callback n kind holds ref mem =>
        ext.awaits (awaits (busy.resolve_left ne) callback n kind holds ref mem)⟩
    · exact (inv.sound hr).extend ext (by rw [references, others _ ne]) id

theorem request_eq_some (found : s.request h = some q) : q ∈ s.requests ∧ q.hash = h :=
  ⟨mem_of_find found, key_of_find found⟩

theorem references_eq_zero : s.references h = 0 ↔ ∀ r ∈ s.requests, h ∉ r.parents := by
  simp [references, sum_eq_zero_iff, count_eq_zero]

theorem Inv.unreferenced (inv : Inv w s debt hole) (absent : s.request h = none) :
    s.references h = 0 ∧ debt.count h = 0 := by
  have pending {p : Hash} (there : ∃ r ∈ s.requests, r.hash = p) : p ≠ h := by
    obtain ⟨r, hr, rfl⟩ := there
    exact find_eq_none.1 absent r hr
  exact ⟨references_eq_zero.2 fun r hr named => pending (inv.linked r hr h named) rfl,
    count_eq_zero.2 fun named => pending (inv.owed h named) rfl⟩

/-- A request for what is pending: the parents of the new request also wait for the old one. -/
theorem Inv.merge {parents : List Hash} (inv : Inv w s (parents ++ debt) hole) (hq : q ∈ s.requests) :
    Inv w (s.update { q with parents := q.parents ++ parents }) debt hole ∧
      Extends s (s.update { q with parents := q.parents ++ parents }) := by
  have ext : Extends s (s.update { q with parents := q.parents ++ parents }) :=
    .update inv.distinct hq rfl rfl (fun _ h => h) fun _ h => mem_append_left _ h
  have counts (p : Hash) : (s.update { q with parents := q.parents ++ parents }).references p +
      debt.count p = s.references p + (parents ++ debt).count p := by
    have := references_update (x := { q with parents := q.parents ++ parents }) inv.distinct hq rfl p
    rw [count_append] at this ⊢
    omega
  refine ⟨inv.extend ext inv.distinct.replace (fun p hp => inv.owed p (mem_append_right _ hp))
    fun r hr => ?_, ext⟩
  obtain rfl | ⟨hr, -⟩ := mem_replace hr
  · -- The merged request differs from the old one in its parents only.
    have sound := (inv.sound hq).extend ext (counts q.hash) id
    refine { sound with linked := fun p hp => ext.pending ?_ }
    obtain hp | hp := mem_append.1 hp
    · exact inv.linked q hq p hp
    · exact inv.owed p (mem_append_left _ hp)
  · exact (inv.sound hr).extend ext (counts r.hash) id

theorem Inv.enqueue (inv : Inv w s (c.parents ++ debt) hole)
    (absent : s.request c.hash = none) (reachable : w.Reachable ⟨c.hash, c.kind⟩)
    (data : c.data = none) (deps : c.deps = 0) (queue : List (Hash × ℕ)) :
    Inv w { s with queue := queue, requests := s.requests ++ [c] } debt hole ∧
      Extends s { s with queue := queue, requests := s.requests ++ [c] } := by
  have ext : Extends s { s with queue := queue, requests := s.requests ++ [c] } :=
    ⟨rfl, rfl, rfl, fun q hq => ⟨q, mem_append_left _ hq, rfl, rfl, fun _ h => h, fun _ h => h⟩⟩
  have counts (p : Hash) : references { s with queue := queue, requests := s.requests ++ [c] } p +
      debt.count p = s.references p + (c.parents ++ debt).count p := by
    simp [Sync.references, Nat.add_assoc]
  refine ⟨inv.extend ext (inv.distinct.append absent) (fun p hp => inv.owed p (mem_append_right _ hp))
    fun r hr => ?_, ext⟩
  obtain hr | hr := mem_append.1 hr
  · exact (inv.sound hr).extend ext (counts r.hash) id
  · obtain rfl := mem_singleton.1 hr
    obtain ⟨unnamed, unowed⟩ := inv.unreferenced absent
    exact
      { reachable := reachable
        counted := by rw [counts, deps, unnamed, unowed]; rfl
        linked := fun p hp => ext.pending (inv.owed p (mem_append_left _ hp))
        idle := fun _ _ => deps
        covered := fun _ d some => nomatch data.symm.trans some }

theorem Inv.schedule (inv : Inv w s (c.parents ++ debt) hole)
    (reachable : w.Reachable ⟨c.hash, c.kind⟩) (data : c.data = none) (deps : c.deps = 0) :
    Inv w (s.schedule c) debt hole ∧ Extends s (s.schedule c) ∧
      ∃ r ∈ (s.schedule c).requests, r.hash = c.hash ∧ c.parents ⊆ r.parents := by
  unfold Sync.schedule
  cases found : s.request c.hash with
  | some q =>
    obtain ⟨hq, hash⟩ := request_eq_some found
    obtain ⟨inv', ext⟩ := inv.merge hq
    exact ⟨inv', ext, _, mem_replace_self hq rfl, hash, fun _ h => mem_append_right _ h⟩
  | none =>
    obtain ⟨inv', ext⟩ := inv.enqueue found reachable data deps (s.queue ++ [(c.hash, c.depth)])
    exact ⟨inv', ext, c, mem_append_right _ mem_cons_self, rfl, fun _ h => h⟩

/-! ## What `commit` keeps -/

theorem get_store (s : Sync κ) (x : Request κ) (h : Hash) :
    (s.store x).get h = if h = x.hash then some (x.data.getD []) else s.get h := by
  unfold Sync.get Sync.store
  dsimp only
  rw [Function.update_apply]
  split_ifs
  · rfl
  · rfl

theorem present_store : (s.store x).Present h ↔ h = x.hash ∨ s.Present h := by
  unfold Present
  rw [get_store]
  by_cases same : h = x.hash <;> simp [same]

/-- A request that nobody waits for and whose references are there. -/
structure Finished (w : World κ) (s : Sync κ) (q : Request κ) (d : Bytes) : Prop where
  mem : q ∈ s.requests
  content : w.content q.hash = some d
  present : ∀ callback n, q.kind = .trie callback → w.Holds q.hash n →
    ∀ ref ∈ refs w.leaf callback n, s.Present ref.hash

theorem Safe.store (fair : w.Fair) (safe : Safe w s) (finished : Finished w s q d)
    (reachable : w.Reachable ⟨q.hash, q.kind⟩) (hash : x.hash = q.hash) (data : x.data = some d) :
    Safe w (s.store x) where
  ordered h := by
    have order : (s.store x).order = s.order ++ [x.hash] := rfl
    have batch : (s.store x).batch h = if h = x.hash then some (x.data.getD []) else s.batch h :=
      Function.update_apply ..
    rw [order, batch, mem_append, mem_singleton, safe.ordered]
    by_cases same : h = x.hash <;> simp [same]
  content h d' found := by
    rw [get_store] at found
    split_ifs at found with same
    · rw [same, hash, finished.content, ← found, data, Option.getD_some]
    · exact safe.content h d' found
  kept h here := present_store.2 (.inr (safe.kept h here))
  stored h present new := by
    obtain same | present := present_store.1 present
    · exact ⟨q.kind, by rw [same, hash]; exact reachable⟩
    · exact safe.stored h present new
  closed h callback n reachable' new present holds ref mem := by
    refine present_store.2 (.inr ?_)
    obtain same | present := present_store.1 present
    · -- The stored entry is reachable in one role only.
      have role := fair.roles _ _ reachable reachable' (hash.symm.trans same.symm)
      have kind : q.kind = .trie callback := congrArg Ref.kind role
      have node : w.Holds q.hash n := by rw [← hash, ← same]; exact holds
      exact finished.present callback n kind node ref mem
    · exact safe.closed h callback n reachable' new present holds ref mem

theorem references_store (distinct : Keyed.Distinct Request.hash s.requests) (hq : q ∈ s.requests)
    (hash : x.hash = q.hash) (p : Hash) :
    (s.store x).references p + q.parents.count p = s.references p := by
  have erased := sum_erase (fun r : Request κ => r.parents.count p) distinct hq
  unfold references Sync.store
  rw [hash]
  exact erased

theorem Inv.store (fair : w.Fair) (inv : Inv w s debt hole) (finished : Finished w s q d)
    (only : hole = none ∨ hole = some q.hash) (unnamed : s.references q.hash = 0)
    (unowed : q.hash ∉ debt)
    (hash : x.hash = q.hash) (data : x.data = some d) : Inv w (s.store x) (q.parents ++ debt) none := by
  have hq := finished.mem
  have left {r : Request κ} : r ∈ (s.store x).requests ↔ r ∈ s.requests ∧ r.hash ≠ q.hash := by
    rw [← hash]
    exact mem_erase
  have named := references_eq_zero.1 unnamed
  have pending {p : Hash} (there : ∃ r ∈ s.requests, r.hash = p) (ne : p ≠ q.hash) :
      ∃ r ∈ (s.store x).requests, r.hash = p := by
    obtain ⟨r, hr, rfl⟩ := there
    exact ⟨r, left.2 ⟨hr, ne⟩, rfl⟩
  have awaits {p h : Hash} (awaits : s.Awaits p h) : (s.store x).Awaits p h := by
    obtain present | ⟨r, hr, rfl, parent⟩ := awaits
    · exact .inl (present_store.2 (.inr present))
    · by_cases same : r.hash = q.hash
      · exact .inl (present_store.2 (.inl (same.trans hash.symm)))
      · exact .inr ⟨r, left.2 ⟨hr, same⟩, rfl, parent⟩
  have elsewhere {r : Request κ} (ne : r.hash ≠ q.hash) : hole ≠ some r.hash := by
    rintro rfl
    exact ne (Option.some.inj (only.resolve_left nofun))
  exact
    { inv.toSafe.store fair finished (inv.reachable q hq) hash data with
      distinct := inv.distinct.erase
      root := by
        refine inv.root.imp_right ?_
        rintro (present | ⟨r, hr, root⟩)
        · exact .inl (present_store.2 (.inr present))
        · by_cases same : r.hash = q.hash
          · exact .inl (present_store.2 (.inl (by rw [← root, same, hash])))
          · exact .inr ⟨r, left.2 ⟨hr, same⟩, root⟩
      reachable := fun r hr => inv.reachable r (left.1 hr).1
      counted := fun r hr => by
        rw [inv.counted r (left.1 hr).1, ← references_store inv.distinct hq hash, count_append,
          Nat.add_assoc]
      linked := fun r hr p hp =>
        pending (inv.linked r (left.1 hr).1 p hp) fun same => named r (left.1 hr).1 (same ▸ hp)
      owed := fun p hp => by
        obtain hp | hp := mem_append.1 hp
        · exact pending (inv.linked q hq p hp) fun same => named q hq (same ▸ hp)
        · exact pending (inv.owed p hp) fun same => unowed (same ▸ hp)
      idle := fun r hr _ => inv.idle r (left.1 hr).1 (elsewhere (left.1 hr).2)
      covered := fun r hr _ d some => by
        obtain ⟨content, waits⟩ := inv.covered r (left.1 hr).1 (elsewhere (left.1 hr).2) d some
        exact ⟨content, fun deps callback n kind holds ref mem =>
          awaits (waits deps callback n kind holds ref mem)⟩ }

theorem weight_update (distinct : Keyed.Distinct Request.hash s.requests) (hq : q ∈ s.requests)
    (deps : ℤ) : (s.update { q with deps := deps }).weight = s.weight := by
  have replaced := sum_replace (x := { q with deps := deps }) (fun r : Request κ => r.parents.length)
    distinct hq rfl
  exact Nat.add_right_cancel replaced

theorem weight_store (distinct : Keyed.Distinct Request.hash s.requests) (hq : q ∈ s.requests) :
    (s.store q).weight + q.parents.length = s.weight :=
  sum_erase (fun r : Request κ => r.parents.length) distinct hq

theorem Inv.finished (inv : Inv w s debt none) (hq : q ∈ s.requests) (waited : q.deps ≠ 0)
    (unnamed : s.references q.hash = 0) : ∃ d, q.data = some d ∧ Finished w s q d := by
  cases data : q.data with
  | none => exact absurd (inv.idle q hq nofun data) waited
  | some d =>
    obtain ⟨content, awaits⟩ := inv.covered q hq nofun d data
    refine ⟨d, rfl, hq, content, fun callback n kind holds ref mem => ?_⟩
    obtain present | ⟨r, hr, -, parent⟩ := awaits waited callback n kind holds ref mem
    · exact present
    · exact absurd parent (references_eq_zero.1 unnamed r hr)

theorem Inv.notify (fair : w.Fair) {n : ℕ} (inv : Inv w s debt none)
    (enough : debt.length + s.weight ≤ n) : Inv w (s.notify n debt) [] none := by
  induction n generalizing s debt with
  | zero =>
    obtain rfl : debt = [] := length_eq_zero_iff.1 (by omega)
    exact inv
  | succ n ih =>
    cases debt with
    | nil => exact inv
    | cons p rest =>
      rw [length_cons] at enough
      obtain ⟨q, hq, rfl⟩ := inv.owed p mem_cons_self
      have found : s.request q.hash = some q := find_eq_some inv.distinct hq
      have count := inv.counted q hq
      rw [count_cons_self] at count
      have paid : Inv w (s.update { q with deps := q.deps - 1 }) rest none := by
        refine inv.setDeps hq (by push_cast at count ⊢; omega) (fun p ne => ?_) (.inr (by omega))
        rw [count_cons_of_ne ne.symm]
      have weight := weight_update inv.distinct hq (q.deps - 1)
      have mem : { q with deps := q.deps - 1 } ∈ (s.update { q with deps := q.deps - 1 }).requests :=
        mem_replace_self hq rfl
      unfold Sync.notify
      simp only [found]
      split_ifs with zero
      · have unnamed : s.references q.hash = 0 := by omega
        have unowed : q.hash ∉ rest := count_eq_zero.1 (by omega)
        obtain ⟨d, data, finished⟩ := inv.finished hq (by omega) unnamed
        have ext := Extends.setDeps inv.distinct hq (q.deps - 1)
        have finished' : Finished w (s.update { q with deps := q.deps - 1 })
            { q with deps := q.deps - 1 } d :=
          ⟨mem, finished.content, fun callback n kind holds ref mem =>
            ext.present.2 (finished.present callback n kind holds ref mem)⟩
        have unnamed' :=
          references_update (x := { q with deps := q.deps - 1 }) inv.distinct hq rfl q.hash
        have stored :=
          paid.store fair finished' (.inl rfl) (by simp only at unnamed' ⊢; omega) unowed rfl data
        have lighter := weight_store paid.distinct mem
        refine ih stored ?_
        rw [length_append]
        simp only at lighter ⊢
        omega
      · exact ih paid (by omega)

theorem Inv.commit (fair : w.Fair) (inv : Inv w s [] hole) (finished : Finished w s q d)
    (only : hole = none ∨ hole = some q.hash) (unnamed : s.references q.hash = 0)
    (hash : x.hash = q.hash)
    (data : x.data = some d) (parents : x.parents = q.parents) : Inv w (s.commit x) [] none := by
  have stored := inv.store fair finished only unnamed not_mem_nil hash data
  rw [append_nil, ← parents] at stored
  exact stored.notify fair le_rfl

end Sync

end JuChain.Trie
