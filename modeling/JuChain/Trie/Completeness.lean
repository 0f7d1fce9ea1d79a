import JuChain.Trie.SyncProcess

/-!
# A synchronised trie is complete

When no request of the scheduler of `core/trie/sync.go` is pending, everything reachable from the
root is in the database or the membatch (`sync_complete`), whatever the order of the calls and the
results.

Requests are kept by hash alone, so a hash must not be reachable as the code of one account and a
node of another trie, and a callback that fails must not have registered anything for the node.
-/

namespace JuChain.Trie

open Slices List Option

variable {κ : Type}

namespace Sync

variable {w : World κ} {s t : Sync κ} {debt : List Hash} {hole : Option Hash} {ref : Ref Unit}

/-! ## Runs -/

theorem Inv.of_get (inv : Inv w s debt hole) (requests : t.requests = s.requests)
    (get : t.get = s.get) (ordered : ∀ h, h ∈ t.order ↔ (t.batch h).isSome) : Inv w t debt hole := by
  have present (h : Hash) : t.Present h ↔ s.Present h := by
    unfold Present
    rw [get]
  have awaits (p h : Hash) : t.Awaits p h ↔ s.Awaits p h := by
    unfold Awaits
    rw [present, requests]
  have references (p : Hash) : t.references p = s.references p := by
    unfold Sync.references
    rw [requests]
  constructor
  · constructor
    · exact ordered
    · rw [get]
      exact inv.content
    · simpa only [present] using inv.kept
    · simpa only [present] using inv.stored
    · simpa only [present] using inv.closed
  · rw [requests]
    exact inv.distinct
  · rw [requests]
    simpa only [present] using inv.root
  · rw [requests]
    exact inv.reachable
  · rw [requests]
    simpa only [references] using inv.counted
  · rw [requests]
    exact inv.linked
  · rw [requests]
    exact inv.owed
  · rw [requests]
    exact inv.idle
  · rw [requests]
    simpa only [awaits] using inv.covered

theorem written_apply (s : Sync κ) (keys : List Hash) (h : Hash) :
    s.written keys h = if h ∈ keys then s.batch h else s.database h := by
  unfold written
  induction keys using reverseRecOn with
  | nil => rfl
  | append_singleton keys key ih =>
    rw [foldl_append, foldl_cons, foldl_nil, Function.update_apply, ih]
    by_cases same : h = key <;> simp [same]

theorem Inv.flush (inv : Inv w s debt hole) (fails : Option ℕ) : Inv w (s.flush fails) debt hole := by
  have whole : Inv w { s with database := s.written s.order, batch := fun _ => none, order := [] } debt
      hole := by
    refine inv.of_get rfl (funext fun h => ?_) fun h => by simp
    unfold Sync.get
    dsimp only
    rw [written_apply, none_or]
    cases batched : s.batch h with
    | none =>
      have absent : h ∉ s.order := fun mem => by
        have := (inv.ordered h).1 mem
        rw [batched] at this
        exact nomatch this
      rw [if_neg absent, none_or]
    | some d => rw [if_pos ((inv.ordered h).2 (by rw [batched]; rfl)), some_or]
  unfold Sync.flush
  cases fails with
  | none => exact whole
  | some i =>
    dsimp only
    split_ifs
    · refine inv.of_get rfl (funext fun h => ?_) inv.ordered
      unfold Sync.get
      dsimp only
      rw [written_apply]
      cases batched : s.batch h with
      | none =>
        have absent : h ∉ s.order.take i := fun mem => by
          have := (inv.ordered h).1 (mem_of_mem_take mem)
          rw [batched] at this
          exact nomatch this
        rw [if_neg absent]
      | some d => rw [some_or, some_or]
    · exact whole

theorem inv_newTrieSync (fair : w.Fair)
    (ran : newTrieSync w.root w.database w.callback = some s) : Inv w s [] none := by
  have present {h : Hash} : ({ database := w.database } : Sync κ).Present h ↔
      (w.database h).isSome := by
    simp [Present, Sync.get]
  have safe : Safe w ({ database := w.database } : Sync κ) :=
    { ordered := by simp
      content := fun h d found => fair.authentic h d (by simpa [Sync.get] using found)
      kept := fun h here => present.2 here
      stored := fun h here new => by simp [present, new] at here
      closed := fun h callback n _ new here => by simp [present, new] at here }
  have quiet (root : w.root = emptyRoot ∨ (w.database w.root).isSome) :
      Inv w ({ database := w.database } : Sync κ) [] none :=
    { safe with
      distinct := nodup_nil
      root := root.imp_right fun here => .inl (present.2 here)
      reachable := by simp
      counted := by simp
      linked := by simp
      owed := by simp
      idle := by simp
      covered := by simp }
  unfold newTrieSync addSubTrie at ran
  split_ifs at ran with empty batched
  · exact some.inj ran ▸ quiet (.inl empty)
  · exact absurd batched (by simp)
  · cases known : decodeNode (some w.root) ((w.database w.root).getD []) 0 with
    | ok n =>
      rw [known] at ran
      refine some.inj ran ▸ quiet (.inr ?_)
      cases stored : w.database w.root with
      | none =>
        rw [stored] at known
        cases known
      | some d => rfl
    | error e =>
      rw [known] at ran
      cases e with
      | panic => cases ran
      | err e =>
        obtain rfl := some.inj ran
        have only {r : Request κ}
            (hr : r ∈ [({ hash := w.root, depth := 0, callback := w.callback } : Request κ)]) :
            r = { hash := w.root, depth := 0, callback := w.callback } := mem_singleton.1 hr
        exact
          { safe with
            distinct := nodup_singleton _
            root := .inr (.inr ⟨_, mem_singleton.2 rfl, rfl⟩)
            reachable := fun r hr => by
              rw [only hr]
              exact .root empty
            counted := fun r hr => by
              rw [only hr]
              rfl
            linked := fun r hr p hp => by
              rw [only hr] at hp
              cases hp
            owed := by simp
            idle := fun r hr _ _ => by rw [only hr]
            covered := fun r hr _ d data => by
              rw [only hr] at data
              cases data }

/-- The results are the contents of their hashes. -/
def Authentic (w : World κ) : Sync κ → Step → Prop
  | _, .process results => ∀ item ∈ results, w.content item.hash = some item.data
  | _, _ => True

theorem Inv.step (fair : w.Fair) (inv : Inv w s [] none) {call : Step}
    (authentic : Authentic w s call) (ran : s.step w.leaf call = some t) : Inv w t [] none := by
  cases call with
  | missing max =>
    obtain rfl := some.inj ran
    exact inv.of_get rfl rfl inv.ordered
  | process results =>
    obtain ⟨⟨u, r⟩, processed, rfl⟩ := map_eq_some_iff.1 ran
    exact inv.process fair authentic processed
  | commit fails =>
    obtain rfl := some.inj ran
    exact inv.flush fails

theorem Inv.closedHere (inv : Inv w s [] none) : Closed w s := by
  intro h present new
  refine ⟨?_, inv.stored h present new, fun callback n reachable holds =>
    inv.closed h callback n reachable new present holds⟩
  obtain ⟨d, found⟩ := isSome_iff_exists.1 present
  rw [found, inv.content h d found]

theorem Inv.complete (fair : w.Fair) (inv : Inv w s [] none) : Complete w s := by
  intro idle ref reachable
  have none : s.requests = [] := length_eq_zero_iff.1 idle
  induction reachable with
  | root nonempty =>
    obtain empty | present | ⟨r, hr, -⟩ := inv.root
    · exact absurd empty nonempty
    · exact present
    · rw [none] at hr
      exact nomatch hr
  | @child h callback n ref reachable holds mem ih =>
    cases start : w.database h with
    | none => exact inv.closed h callback n reachable start ih holds ref mem
    | some d =>
      exact inv.kept _ (fair.full h callback n reachable (by rw [start]; rfl) holds ref mem)

/-- At no time does a stored entry lack what it refers to. -/
theorem sync_complete (w : World κ) (fair : w.Fair) (s : Sync κ)
    (start : newTrieSync w.root w.database w.callback = some s) (calls : List Step)
    (authentic : Runs.Throughout (step w.leaf) (Authentic w) s calls) :
    Runs.Always (step w.leaf) (fun s => Closed w s ∧ Complete w s) s calls :=
  Runs.always_of_throughout (I := fun s => Inv w s [] none)
    (fun _ _ _ inv authentic ran => inv.step fair authentic ran)
    (fun _ inv => ⟨inv.closedHere, inv.complete fair⟩) (inv_newTrieSync fair start) authentic

/-! ## Two tries -/

/-- A leaf. -/
def leafBytes : Bytes := [0xc2, 0x20, 0x05]

/-- An extension node over it. -/
def extensionBytes : Bytes := [0xe2, 0x11, 0xa0] ++ List.replicate 31 0 ++ [3]

theorem decode_leafBytes (h : Hash) :
    decodeNode (some h) leafBytes 0 = .ok (.short [16] (.value [5]) ⟨some h, 0, false⟩) := rfl

theorem decode_extensionBytes (h : Hash) :
    decodeNode (some h) extensionBytes 0 = .ok (.short [1] (.hash 3) ⟨some h, 0, false⟩) := rfl

/-- The trie of the two. -/
def extensionWorld : World Unit where
  root := 2
  callback := none
  leaf _ _ := ([], false)
  content h := if h = 2 then some extensionBytes else if h = 3 then some leafBytes else none
  database _ := none

theorem extension_holds {h : Hash} {n : Node} (holds : extensionWorld.Holds h n) :
    h = 2 ∧ n = .short [1] (.hash 3) ⟨some h, 0, false⟩ ∨
      h = 3 ∧ n = .short [16] (.value [5]) ⟨some h, 0, false⟩ := by
  obtain ⟨d, content, decoded⟩ := holds
  unfold extensionWorld at content
  dsimp only at content
  split_ifs at content with two three
  · obtain rfl := some.inj content
    exact .inl ⟨two, Except.ok.inj (decoded.symm.trans (decode_extensionBytes h))⟩
  · obtain rfl := some.inj content
    exact .inr ⟨three, Except.ok.inj (decoded.symm.trans (decode_leafBytes h))⟩

theorem extension_refs {h : Hash} {n : Node} (holds : extensionWorld.Holds h n)
    (mem : ref ∈ refs extensionWorld.leaf none n) :
    ref = ⟨3, .trie none⟩ ∧ ref ∈ directRefs extensionWorld.leaf none n := by
  obtain ⟨-, rfl⟩ | ⟨-, rfl⟩ := extension_holds holds
  · exact ⟨mem_singleton.1 mem, mem_flatMap.2 ⟨.hash 3, mem_cons_self, mem⟩⟩
  · exact nomatch mem

theorem extension_reachable (reachable : extensionWorld.Reachable ref) :
    ref = ⟨2, .trie none⟩ ∨ ref = ⟨3, .trie none⟩ := by
  induction reachable with
  | root h => exact .inl rfl
  | @child h callback n ref _ holds mem ih =>
    obtain rfl : callback = none := by
      obtain ih | ih := ih <;> exact Kind.trie.inj (congrArg Ref.kind ih)
    exact .inr (extension_refs holds mem).1

theorem extension_fair : extensionWorld.Fair where
  authentic _ _ stored := nomatch stored
  full _ _ _ _ stored := nomatch stored
  roles r r' hr hr' same := by
    obtain rfl | rfl := extension_reachable hr <;> obtain rfl | rfl := extension_reachable hr'
    · rfl
    · exact absurd same (by decide)
    · exact absurd same (by decide)
    · rfl
  nonzero r hr := by
    obtain rfl | rfl := extension_reachable hr <;> decide
  failing h k n v v' reachable := by
    obtain same | same := extension_reachable reachable <;>
      exact nomatch Kind.trie.inj (congrArg Ref.kind same)
  embedded h callback n reachable holds ref mem := by
    obtain rfl : callback = none := by
      obtain same | same := extension_reachable reachable <;>
        exact Kind.trie.inj (congrArg Ref.kind same)
    exact (extension_refs holds mem).2

/-- It is synchronised. -/
def extensionCalls : List Step :=
  [.missing 0, .process [⟨2, extensionBytes⟩], .missing 0, .process [⟨3, leafBytes⟩], .commit none]

theorem extension_synchronised : extensionWorld.Fair ∧
    ∃ s, newTrieSync extensionWorld.root extensionWorld.database extensionWorld.callback = some s ∧
      Runs.Throughout (step extensionWorld.leaf) (Authentic extensionWorld) s extensionCalls ∧
      Runs.Always (step extensionWorld.leaf)
        (fun s => Closed extensionWorld s ∧ Complete extensionWorld s) s extensionCalls := by
  have authentic (s : Sync Unit) :
      Runs.Throughout (step extensionWorld.leaf) (Authentic extensionWorld) s extensionCalls := by
    refine ⟨trivial, fun _ _ => ⟨?_, fun _ _ => ⟨trivial, fun _ _ => ⟨?_, fun _ _ => ⟨trivial,
      fun _ _ => trivial⟩⟩⟩⟩⟩
    · intro item hi
      obtain rfl := mem_singleton.1 hi
      rfl
    · intro item hi
      obtain rfl := mem_singleton.1 hi
      rfl
  exact ⟨extension_fair, _, rfl, authentic _, sync_complete _ extension_fair _ rfl _ (authentic _)⟩

/-- A leaf whose callback asks for the extension as an entry and then as the root of a trie. -/
def confusedWorld : World Unit where
  root := 1
  callback := some ()
  leaf _ _ := ([.rawEntry 2 64, .subTrie 2 64 none], false)
  content h := if h = 1 then some leafBytes else if h = 2 then some extensionBytes
    else if h = 3 then some leafBytes else none
  database _ := none

/-- The request for the extension is one for a raw entry, so the leaf below is never asked for. -/
theorem confused_incomplete :
    (((newTrieSync confusedWorld.root confusedWorld.database confusedWorld.callback).bind fun s =>
      Runs.run (step confusedWorld.leaf) s
        [.process [⟨1, leafBytes⟩], .process [⟨2, extensionBytes⟩]]).map
        fun s => (s.pending, s.get 2, s.get 3)) = some (0, some extensionBytes, none) ∧
    confusedWorld.Reachable ⟨3, .trie none⟩ := by
  refine ⟨by decide +kernel, ?_⟩
  have below : confusedWorld.Reachable ⟨2, .trie none⟩ := by
    refine .child (.root (by decide)) ⟨leafBytes, rfl, decode_leafBytes _⟩ ?_
    simp [refs, leafRefs, confusedWorld, Action.ref, emptyRoot, emptyState]
  exact .child below ⟨extensionBytes, rfl, decode_extensionBytes _⟩ mem_cons_self

end Sync

end JuChain.Trie
