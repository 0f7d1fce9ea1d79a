import JuChain.Trie.SyncInvariant

/-!
# Processing the results of a synchronisation

`Process` keeps the invariant of trie synchronisation, whatever comes in (`Inv.process`): results
that were not asked for, that have come before or that do not decode, and callbacks that fail before
they have registered anything.
-/

namespace JuChain.Trie

open Slices List Option

variable {κ : Type}

namespace Sync

variable {w : World κ} {s : Sync κ} {debt : List Hash} {hole : Option Hash}

section Process

variable {p : Hash} {t : Sync κ} {callback : Option κ} {depth : ℕ} {x : Node × ℕ} {ref : Ref κ}

section

variable (inv : Inv w s [] (some p))
include inv

theorem Inv.scheduleUnder {c : Request κ} (nonzero : p ≠ 0) (reachable : w.Reachable ⟨c.hash, c.kind⟩)
    (data : c.data = none) (deps : c.deps = 0) (ran : s.scheduleUnder p c = some t) :
    Inv w t [] (some p) ∧ Extends s t ∧ t.Awaits p c.hash := by
  unfold Sync.scheduleUnder at ran
  rw [if_neg nonzero] at ran
  obtain ⟨q, found, rfl⟩ := map_eq_some_iff.1 ran
  obtain ⟨hq, rfl⟩ := request_eq_some found
  have counted : Inv w (s.update { q with deps := q.deps + 1 }) [q.hash] (some q.hash) := by
    refine inv.setDeps hq ?_ (fun p ne => count_cons_of_ne ne.symm) (.inl rfl)
    have count := inv.counted q hq
    rw [count_singleton_self]
    rw [count_nil] at count
    omega
  have ext := Extends.setDeps inv.distinct hq (q.deps + 1)
  obtain ⟨inv', ext', r, hr, hash, parents⟩ :=
    Inv.schedule (c := { c with parents := [q.hash] }) counted reachable data deps
  exact ⟨inv', ext.trans ext', .inr ⟨r, hr, hash, parents mem_cons_self⟩⟩

theorem Inv.addSubTrie {root : Hash} (nonzero : p ≠ 0)
    (reachable : root ≠ emptyRoot → w.Reachable ⟨root, .trie callback⟩)
    (ran : s.addSubTrie root depth p callback = some t) :
    Inv w t [] (some p) ∧ Extends s t ∧ (root ≠ emptyRoot → t.Awaits p root) := by
  unfold Sync.addSubTrie at ran
  split_ifs at ran with empty batched
  · obtain rfl := some.inj ran
    exact ⟨inv, .refl s, fun ne => absurd empty ne⟩
  · obtain rfl := some.inj ran
    refine ⟨inv, .refl s, fun _ => .inl ?_⟩
    simp [Present, Sync.get, batched]
  · cases known : decodeNode (some root) ((s.database root).getD []) 0 with
    | ok n =>
      rw [known] at ran
      obtain rfl := some.inj ran
      refine ⟨inv, .refl s, fun _ => .inl ?_⟩
      cases stored : s.database root with
      | none =>
        -- There is no node without bytes.
        rw [stored] at known
        exact nomatch known
      | some d => simp [Present, Sync.get, stored]
    | error e =>
      rw [known] at ran
      cases e with
      | panic => exact nomatch ran
      | err e =>
        obtain ⟨inv', ext, awaits⟩ := inv.scheduleUnder nonzero (reachable empty) rfl rfl ran
        exact ⟨inv', ext, fun _ => awaits⟩

theorem Inv.addRawEntry {hash : Hash} (nonzero : p ≠ 0)
    (reachable : hash ≠ emptyState → w.Reachable ⟨hash, .raw⟩)
    (ran : s.addRawEntry hash depth p = some t) :
    Inv w t [] (some p) ∧ Extends s t ∧ (hash ≠ emptyState → t.Awaits p hash) := by
  unfold Sync.addRawEntry at ran
  split_ifs at ran with empty batched stored
  · obtain rfl := some.inj ran
    exact ⟨inv, .refl s, fun ne => absurd empty ne⟩
  · obtain rfl := some.inj ran
    refine ⟨inv, .refl s, fun _ => .inl ?_⟩
    simp [Present, Sync.get, batched]
  · obtain rfl := some.inj ran
    refine ⟨inv, .refl s, fun _ => .inl ?_⟩
    simp [Present, Sync.get, stored]
  · obtain ⟨inv', ext, awaits⟩ := inv.scheduleUnder nonzero (reachable empty) rfl rfl ran
    exact ⟨inv', ext, fun _ => awaits⟩

theorem Inv.register {action : Action κ} (nonzero : p ≠ 0)
    (reachable : ∀ ref, action.ref = some ref → w.Reachable ref) (ran : s.register p action = some t) :
    Inv w t [] (some p) ∧ Extends s t ∧ ∀ ref, action.ref = some ref → t.Awaits p ref.hash := by
  cases action with
  | subTrie root depth callback =>
    obtain ⟨inv', ext, awaits⟩ := inv.addSubTrie nonzero (fun ne => reachable _ (if_neg ne)) ran
    refine ⟨inv', ext, fun r hr => ?_⟩
    unfold Action.ref at hr
    dsimp only at hr
    split_ifs at hr with empty
    obtain rfl := some.inj hr
    exact awaits empty
  | rawEntry hash depth =>
    obtain ⟨inv', ext, awaits⟩ := inv.addRawEntry nonzero (fun ne => reachable _ (if_neg ne)) ran
    refine ⟨inv', ext, fun r hr => ?_⟩
    unfold Action.ref at hr
    dsimp only at hr
    split_ifs at hr with empty
    obtain rfl := some.inj hr
    exact awaits empty

theorem Inv.perform {actions : List (Action κ)} (nonzero : p ≠ 0)
    (reachable : ∀ ref ∈ actions.filterMap Action.ref, w.Reachable ref)
    (ran : Sync.perform p actions s = some t) : Inv w t [] (some p) ∧ Extends s t ∧
      ∀ ref ∈ actions.filterMap Action.ref, t.Awaits p ref.hash := by
  induction actions generalizing s with
  | nil =>
    obtain rfl := some.inj ran
    exact ⟨inv, .refl s, nofun⟩
  | cons action rest ih =>
    obtain ⟨u, first, ran⟩ := bind_eq_some_iff.1 ran
    simp only [mem_filterMap, mem_cons] at reachable ih ⊢
    obtain ⟨inv₁, ext₁, awaits₁⟩ :=
      inv.register nonzero (fun ref hr => reachable ref ⟨action, .inl rfl, hr⟩) first
    obtain ⟨inv₂, ext₂, awaits₂⟩ :=
      ih inv₁ (fun ref ⟨a, ha, hr⟩ => reachable ref ⟨a, .inr ha, hr⟩) ran
    refine ⟨inv₂, ext₁.trans ext₂, ?_⟩
    rintro ref ⟨a, rfl | ha, hr⟩
    · exact ext₂.awaits (awaits₁ ref hr)
    · exact awaits₂ ref ⟨a, ha, hr⟩

end

/-- A request that `children` makes. -/
structure IsChild (w : World κ) (p : Hash) (c : Request κ) : Prop where
  reachable : w.Reachable ⟨c.hash, c.kind⟩
  data : c.data = none
  deps : c.deps = 0
  parents : c.parents = [p]

/-- `children` has gone through the nodes from `s` to `t`: every reference is known, registered by
the callback or among the requests. -/
structure Gathered (w : World κ) (req : Request κ) (nodes : List (Node × ℕ)) (s t : Sync κ)
    (out : List (Request κ)) : Prop where
  inv : Inv w t [] (some req.hash)
  ext : Extends s t
  child : ∀ c ∈ out, IsChild w req.hash c
  awaits : ∀ x ∈ nodes, ∀ ref ∈ childRefs w.leaf req.callback x.1,
    t.Awaits req.hash ref.hash ∨ ∃ c ∈ out, c.hash = ref.hash

variable {req : Request κ} {nodes : List (Node × ℕ)} {acc out : List (Request κ)}

theorem Gathered.cons {u : Sync κ} (gathered : Gathered w req nodes u t out)
    (ext : Extends s u) (awaits : ∀ ref ∈ childRefs w.leaf req.callback x.1,
      t.Awaits req.hash ref.hash ∨ ∃ c ∈ out, c.hash = ref.hash) :
    Gathered w req (x :: nodes) s t out where
  inv := gathered.inv
  ext := ext.trans gathered.ext
  child := gathered.child
  awaits y hy := by
    obtain rfl | hy := mem_cons.1 hy
    · exact awaits
    · exact gathered.awaits y hy

theorem Inv.children (inv : Inv w s [] (some req.hash)) (nonzero : req.hash ≠ 0)
    (reachable : ∀ x ∈ nodes, ∀ ref ∈ childRefs w.leaf req.callback x.1, w.Reachable ref)
    (acc_child : ∀ c ∈ acc, IsChild w req.hash c)
    (ran : Sync.children w.leaf req nodes acc s = some (t, some out)) :
    Gathered w req nodes s t out ∧ acc ⊆ out := by
  induction nodes generalizing s acc with
  | nil =>
    obtain ⟨rfl, rfl⟩ : s = t ∧ acc = out := by
      simpa [Sync.children] using ran
    exact ⟨⟨inv, .refl s, acc_child, nofun⟩, fun _ h => h⟩
  | cons x rest ih =>
    obtain ⟨node, depth⟩ := x
    have reachable_rest : ∀ x ∈ rest, ∀ ref ∈ childRefs w.leaf req.callback x.1, w.Reachable ref :=
      fun x hx => reachable x (mem_cons_of_mem _ hx)
    have reachable_node := reachable (node, depth) mem_cons_self
    have known {h : Hash} (there : s.Present h) (node_eq : node = .hash h)
        (ran : Sync.children w.leaf req rest acc s = some (t, some out)) :
        Gathered w req ((node, depth) :: rest) s t out ∧ acc ⊆ out := by
      obtain ⟨gathered, sub⟩ := ih inv reachable_rest acc_child ran
      refine ⟨gathered.cons (.refl s) fun ref hr => ?_, sub⟩
      rw [node_eq] at hr
      obtain rfl := mem_singleton.1 hr
      exact .inl (.inl (gathered.ext.present.2 there))
    cases node with
    | nil | short key val flags | full children flags =>
      obtain ⟨gathered, sub⟩ := ih inv reachable_rest acc_child ran
      exact ⟨gathered.cons (.refl s) nofun, sub⟩
    | hash h =>
      unfold Sync.children at ran
      split_ifs at ran with batched stored
      · exact known (by simp [Present, Sync.get, batched]) rfl ran
      · exact known (by simp [Present, Sync.get, stored]) rfl ran
      · have child : IsChild w req.hash (req.child h depth) :=
          ⟨reachable_node ⟨h, .trie req.callback⟩ mem_cons_self, rfl, rfl, rfl⟩
        have more : ∀ c ∈ acc ++ [req.child h depth], IsChild w req.hash c := by
          intro c hc
          obtain hc | hc := mem_append.1 hc
          · exact acc_child c hc
          · exact mem_singleton.1 hc ▸ child
        obtain ⟨gathered, sub⟩ := ih inv reachable_rest more ran
        refine ⟨gathered.cons (.refl s) fun ref hr => ?_, fun c hc => sub (mem_append_left _ hc)⟩
        obtain rfl := mem_singleton.1 hr
        exact .inr ⟨_, sub (mem_append_right _ mem_cons_self), rfl⟩
    | value v =>
      unfold Sync.children at ran
      cases callback : req.callback with
      | none =>
        simp only [callback] at ran
        obtain ⟨gathered, sub⟩ := ih inv reachable_rest acc_child ran
        refine ⟨gathered.cons (.refl s) fun ref hr => ?_, sub⟩
        simp [childRefs, leafRefs, callback] at hr
      | some k =>
        simp only [callback] at ran
        obtain ⟨u, performed, ran⟩ := bind_eq_some_iff.1 ran
        split_ifs at ran
        · exact nomatch (Prod.mk.inj (some.inj ran)).2
        · have refs_eq : childRefs w.leaf req.callback (.value v) =
              (w.leaf k v).1.filterMap Action.ref := by simp [childRefs, leafRefs, callback]
          rw [refs_eq] at reachable_node
          obtain ⟨inv', ext, awaits⟩ := inv.perform nonzero reachable_node performed
          obtain ⟨gathered, sub⟩ := ih inv' reachable_rest acc_child ran
          refine ⟨gathered.cons ext fun ref hr => ?_, sub⟩
          rw [refs_eq] at hr
          exact .inl (gathered.ext.awaits (awaits ref hr))

theorem Inv.schedules {cs : List (Request κ)} (inv : Inv w s (List.replicate cs.length p) hole)
    (child : ∀ c ∈ cs, IsChild w p c) :
    Inv w (cs.foldl Sync.schedule s) [] hole ∧ Extends s (cs.foldl Sync.schedule s) ∧
      ∀ c ∈ cs, (cs.foldl Sync.schedule s).Awaits p c.hash := by
  induction cs generalizing s with
  | nil => exact ⟨inv, .refl s, nofun⟩
  | cons c rest ih =>
    have first := child c mem_cons_self
    have owed : Inv w s (c.parents ++ replicate rest.length p) hole := by
      rw [first.parents]
      exact inv
    obtain ⟨inv₁, ext₁, r, hr, hash, parents⟩ := owed.schedule first.reachable first.data first.deps
    obtain ⟨inv₂, ext₂, awaits⟩ := ih inv₁ fun c hc => child c (mem_cons_of_mem _ hc)
    refine ⟨inv₂, ext₁.trans ext₂, fun c' hc' => ?_⟩
    obtain rfl | hc' := mem_cons.1 hc'
    · refine ext₂.awaits (.inr ⟨r, hr, hash, parents ?_⟩)
      rw [first.parents]
      exact mem_cons_self
    · exact awaits c' hc'

variable {q : Request κ}

theorem Inv.fill (inv : Inv w s debt (some q.hash)) (hq : q ∈ s.requests) {d : Bytes}
    (data : q.data = some d) (content : w.content q.hash = some d)
    (awaits : q.deps ≠ 0 → ∀ callback n, q.kind = .trie callback → w.Holds q.hash n →
      ∀ ref ∈ refs w.leaf callback n, s.Awaits q.hash ref.hash) : Inv w s debt none :=
  { inv with
    idle := fun r hr _ none => by
      by_cases same : r.hash = q.hash
      · obtain rfl := inv.distinct.eq hr hq same
        rw [data] at none
        exact nomatch none
      · exact inv.idle r hr (fun h => same (Option.some.inj h).symm) none
    covered := fun r hr _ d' some => by
      by_cases same : r.hash = q.hash
      · obtain rfl := inv.distinct.eq hr hq same
        obtain rfl := Option.some.inj (data.symm.trans some)
        exact ⟨content, awaits⟩
      · exact inv.covered r hr (fun h => same (Option.some.inj h).symm) d' some }

/-- A callback has failed, and nothing has happened if none has registered anything. -/
theorem exists_failing (ran : Sync.children w.leaf req nodes acc s = some (t, none)) :
    ∃ k v depth, req.callback = some k ∧ (Node.value v, depth) ∈ nodes ∧ (w.leaf k v).2 = true ∧
      ((∀ v' depth', (Node.value v', depth') ∈ nodes → (w.leaf k v').1 = []) → t = s) := by
  induction nodes generalizing s acc with
  | nil => exact nomatch (Prod.mk.inj (some.inj ran)).2
  | cons x rest ih =>
    obtain ⟨node, depth⟩ := x
    have later {acc : List (Request κ)} {u : Sync κ}
      (ran : Sync.children w.leaf req rest acc u = some (t, none))
        (same : ∀ k, req.callback = some k →
          (∀ v d, (Node.value v, d) ∈ (node, depth) :: rest → (w.leaf k v).1 = []) → u = s) :
        ∃ k v d, req.callback = some k ∧ (Node.value v, d) ∈ (node, depth) :: rest ∧
          (w.leaf k v).2 = true ∧
          ((∀ v d, (Node.value v, d) ∈ (node, depth) :: rest → (w.leaf k v).1 = []) → t = s) := by
      obtain ⟨k, v, d, callback, mem, fails, quiet⟩ := ih ran
      refine ⟨k, v, d, callback, mem_cons_of_mem _ mem, fails, fun none => ?_⟩
      exact (quiet fun v d mem => none v d (mem_cons_of_mem _ mem)).trans (same k callback none)
    cases node with
    | nil | short key val flags | full children flags => exact later ran fun _ _ _ => rfl
    | hash h =>
      unfold Sync.children at ran
      split_ifs at ran <;> exact later ran fun _ _ _ => rfl
    | value v =>
      unfold Sync.children at ran
      cases callback : req.callback with
      | none =>
        simp only [callback] at ran
        exact callback ▸ later ran fun _ _ _ => rfl
      | some k =>
        simp only [callback] at ran
        obtain ⟨u, performed, ran⟩ := bind_eq_some_iff.1 ran
        have same
          (none : ∀ v' d, (Node.value v', d) ∈ (.value v, depth) :: rest → (w.leaf k v').1 = []) :
            u = s := by
          rw [none v depth mem_cons_self] at performed
          exact (some.inj performed).symm
        split_ifs at ran with fails
        · obtain ⟨rfl, -⟩ := Prod.mk.inj (some.inj ran)
          exact ⟨k, v, depth, rfl, mem_cons_self, fails, same⟩
        · refine callback ▸ later ran fun k' hk' => ?_
          rw [← some.inj (callback.symm.trans hk')]
          exact same

theorem mem_childNodes {n : Node} (listed : Sync.kids depth n = some nodes)
    (hx : x ∈ nodes) : x.1 ∈ n.childNodes := by
  cases n with
  | short key val flags =>
    obtain rfl := some.inj listed
    obtain rfl := mem_singleton.1 hx
    exact mem_cons_self
  | full children flags =>
    obtain rfl := some.inj listed
    obtain ⟨i, hi, hx⟩ := mem_filterMap.1 hx
    refine mem_map.2 ⟨i, hi, ?_⟩
    cases child : children i <;> rw [child] at hx <;> simp at hx <;> rw [← hx]
  | nil | hash h | value v => exact nomatch listed

theorem exists_kid {n c : Node} (listed : Sync.kids depth n = some nodes) (hc : c ∈ n.childNodes)
    (hr : ref ∈ childRefs w.leaf callback c) : ∃ x ∈ nodes, x.1 = c := by
  cases n with
  | short key val flags =>
    obtain rfl := some.inj listed
    obtain rfl := mem_singleton.1 hc
    exact ⟨_, mem_cons_self, rfl⟩
  | full children flags =>
    obtain rfl := some.inj listed
    obtain ⟨i, hi, rfl⟩ := mem_map.1 hc
    refine ⟨(children i, depth + 1), mem_filterMap.2 ⟨i, hi, ?_⟩, rfl⟩
    cases child : children i with
    | nil =>
      rw [child] at hr
      exact nomatch hr
    | short key val flags | full children flags | hash h | value v => rfl
  | nil | hash h | value v => exact nomatch listed

theorem mem_refs {n c : Node} (hc : c ∈ n.childNodes)
    (hr : ref ∈ childRefs w.leaf callback c) : ref ∈ refs w.leaf callback n := by
  have child : ref ∈ refs w.leaf callback c := by
    cases c with
    | hash h | value v => exact hr
    | nil | short key val flags | full children flags => exact nomatch hr
  cases n with
  | short key val flags =>
    obtain rfl := mem_singleton.1 hc
    exact child
  | full children flags =>
    obtain ⟨i, hi, rfl⟩ := mem_map.1 hc
    exact mem_flatMap.2 ⟨i, hi, child⟩
  | nil | hash h | value v => exact nomatch hc

theorem Inv.setData (inv : Inv w s [] none) (hq : q ∈ s.requests) (new : q.data = none) (d : Bytes) :
    Inv w (s.update { q with data := some d }) [] (some q.hash) ∧
      Extends s (s.update { q with data := some d }) := by
  have ext : Extends s (s.update { q with data := some d }) :=
    .update inv.distinct hq rfl rfl (fun _ h => nomatch new.symm.trans h) fun _ h => h
  have references (p : Hash) : (s.update { q with data := some d }).references p = s.references p :=
    Nat.add_right_cancel (references_update (x := { q with data := some d }) inv.distinct hq rfl p)
  refine ⟨inv.extend ext inv.distinct.replace nofun fun r hr => ?_, ext⟩
  obtain rfl | ⟨hr, -⟩ := Keyed.mem_replace hr
  · exact
      { reachable := inv.reachable q hq
        counted := by rw [references]; exact inv.counted q hq
        linked := fun p hp => ext.pending (inv.linked q hq p hp)
        idle := fun ne => absurd rfl ne
        covered := fun ne => absurd rfl ne }
  · exact (inv.sound hr).extend ext (by rw [references]) nofun

/-- All that the node refers to is there, waited for or among the requests. -/
theorem Inv.await (fair : w.Fair) {d : Bytes} (inv : Inv w s [] (some q.hash)) (hq : q ∈ s.requests)
    (data : q.data = some d) (content : w.content q.hash = some d)
    (child : ∀ c ∈ out, IsChild w q.hash c)
    (awaits : ∀ callback n, q.kind = .trie callback → w.Holds q.hash n →
      ∀ ref ∈ refs w.leaf callback n, s.Awaits q.hash ref.hash ∨ ∃ c ∈ out, c.hash = ref.hash) :
    Inv w (s.await q out).1 [] none := by
  have count := inv.counted q hq
  rw [count_nil] at count
  unfold Sync.await
  split_ifs with done
  · -- Nothing is left to wait for.
    obtain rfl : out = [] := length_eq_zero_iff.1 done.1
    have unnamed : s.references q.hash = 0 := by omega
    refine inv.commit fair ⟨hq, content, fun callback n kind holds ref mem => ?_⟩ (.inr rfl) unnamed rfl
      data rfl
    obtain (present | ⟨r, hr, -, parent⟩) | ⟨c, hc, -⟩ := awaits callback n kind holds ref mem
    · exact present
    · exact absurd parent (references_eq_zero.1 unnamed r hr)
    · exact nomatch hc
  · have counted : Inv w (s.update { q with deps := q.deps + out.length })
        (replicate out.length q.hash) (some q.hash) := by
      refine inv.setDeps hq ?_ (fun p ne => ?_) (.inl rfl)
      · rw [count_replicate_self]
        omega
      · rw [count_replicate, count_nil, if_neg]
        simpa using ne.symm
    have ext := Extends.setDeps inv.distinct hq (q.deps + out.length)
    obtain ⟨inv', ext', scheduled⟩ := counted.schedules child
    obtain ⟨r, hr, hash, kind, data', -⟩ := (ext.trans ext').requests q hq
    have current : Inv w (out.foldl Sync.schedule (s.update { q with deps := q.deps + out.length })) []
        (some r.hash) := by
      rw [hash]
      exact inv'
    refine current.fill hr (data' d data) (hash ▸ content) fun _ callback n kind' holds ref mem => ?_
    rw [hash] at holds ⊢
    obtain awaits | ⟨c, hc, same⟩ := awaits callback n (kind.symm.trans kind') holds ref mem
    · exact (ext.trans ext').awaits awaits
    · exact same ▸ scheduled c hc

section Node

variable {q : Request κ} {d : Bytes} {n : Node} (fair : w.Fair) (inv : Inv w s [] none)
  (hq : q ∈ s.requests)
  (new : q.data = none) (node : q.raw = false) (content : w.content q.hash = some d)
  (decoded : decodeNode (some q.hash) d 0 = .ok n) (listed : Sync.kids q.depth n = some nodes)

include fair inv hq new node content decoded listed

theorem Inv.processFailing
    (ran : Sync.children w.leaf { q with data := some d } nodes []
      (s.update { q with data := some d }) = some (t, none)) : Inv w t [] none := by
  obtain ⟨k, v, depth, callback, mem, fails, quiet⟩ := exists_failing ran
  have kind : q.kind = .trie (some k) := by
    simp only [Request.kind, node, Bool.false_eq_true, if_false]
    exact congrArg Kind.trie callback
  have reachable : w.Reachable ⟨q.hash, .trie (some k)⟩ := kind ▸ inv.reachable q hq
  obtain rfl := quiet fun v' depth' mem' =>
    fair.failing q.hash k n v v' reachable ⟨d, content, decoded⟩ (mem_childNodes listed mem)
      (mem_childNodes listed mem') fails
  refine Inv.fill (q := { q with data := some d }) (inv.setData hq new d).1
    (Keyed.mem_replace_self hq rfl) rfl content fun deps => ?_
  exact absurd (inv.idle q hq nofun new) deps

theorem Inv.processNode
    (ran : Sync.children w.leaf { q with
      data := some d } nodes [] (s.update { q with data := some d }) =
      some (t, some out)) {q' : Request κ} (found : t.request q.hash = some q') :
    Inv w (t.await q' out).1 [] none := by
  have holds : w.Holds q.hash n := ⟨d, content, decoded⟩
  have kind : q.kind = .trie q.callback := by
    simp only [Request.kind, node, Bool.false_eq_true, if_false]
  have reachable : w.Reachable ⟨q.hash, .trie q.callback⟩ := kind ▸ inv.reachable q hq
  let filled : Request κ := { q with data := some d }
  have waiting : Inv w (s.update filled) [] (some filled.hash) := (inv.setData hq new d).1
  obtain ⟨gathered, -⟩ := waiting.children (fair.nonzero _ reachable)
    (fun x hx ref hr => reachable.child holds (mem_refs (mem_childNodes listed hx) hr))
    (fun _ h => absurd h not_mem_nil) ran
  obtain ⟨hq', hash⟩ := request_eq_some found
  -- The request is the one that was being processed, with what the callback has registered.
  obtain ⟨r, hr, hash', kind', data', -⟩ :=
    gathered.ext.requests { q with data := some d } (Keyed.mem_replace_self hq rfl)
  obtain rfl := gathered.inv.distinct.eq hr hq' (hash'.trans hash.symm)
  have current : Inv w t [] (some r.hash) := by
    rw [hash]
    exact gathered.inv
  refine current.await fair hr (data' d rfl) (hash ▸ content) (by rw [hash]; exact gathered.child)
    fun callback m kind'' holds' ref mem => ?_
  obtain rfl : q.callback = callback :=
    Kind.trie.inj (kind.symm.trans (kind'.symm.trans kind''))
  obtain ⟨d', content', decoded'⟩ := holds'
  rw [hash] at content' decoded' ⊢
  obtain rfl := some.inj (content.symm.trans content')
  obtain rfl := Except.ok.inj (decoded.symm.trans decoded')
  obtain ⟨c, hc, hr'⟩ := mem_flatMap.1 (fair.embedded q.hash q.callback n reachable holds ref mem)
  obtain ⟨x, hx, rfl⟩ := exists_kid listed hc hr'
  exact gathered.awaits x hx ref hr'

end Node

theorem Inv.processItem (fair : w.Fair) {item : SyncResult} {r : Except SyncErr Bool}
    (inv : Inv w s [] none) (authentic : w.content item.hash = some item.data)
    (ran : Sync.processItem w.leaf item s = some (t, r)) : Inv w t [] none := by
  unfold Sync.processItem at ran
  cases found : s.request item.hash with
  | none =>
    rw [found] at ran
    obtain ⟨rfl, -⟩ := Prod.mk.inj (some.inj ran)
    exact inv
  | some q =>
    obtain ⟨hq, hash⟩ := request_eq_some found
    rw [found] at ran
    dsimp only at ran
    rw [← hash] at authentic
    split_ifs at ran with old raw
    · obtain ⟨rfl, -⟩ := Prod.mk.inj (some.inj ran)
      exact inv
    · -- A raw entry is complete.
      obtain ⟨rfl, -⟩ := Prod.mk.inj (some.inj ran)
      have count := inv.counted q hq
      rw [inv.idle q hq nofun (by simpa using old), count_nil] at count
      refine inv.commit fair ⟨hq, authentic, fun callback n kind => ?_⟩ (.inl rfl) (by omega) rfl
        rfl rfl
      simp [Request.kind, raw] at kind
    · cases decoded : decodeNode (some item.hash) item.data 0 with
      | error e =>
        rw [decoded] at ran
        cases e with
        | panic => exact nomatch ran
        | err e =>
          obtain ⟨rfl, -⟩ := Prod.mk.inj (some.inj ran)
          exact inv
      | ok node =>
        rw [decoded] at ran
        obtain ⟨nodes, listed, ran⟩ := bind_eq_some_iff.1 ran
        obtain ⟨⟨u, result⟩, gathered, ran⟩ := bind_eq_some_iff.1 ran
        have isNone : q.data = none := by simpa using old
        have notRaw : q.raw = false := by simpa using raw
        rw [← hash] at decoded
        cases result with
        | none =>
          obtain ⟨rfl, -⟩ := Prod.mk.inj (some.inj ran)
          exact inv.processFailing fair hq isNone notRaw authentic decoded listed gathered
        | some out =>
          obtain ⟨q', found', ran⟩ := map_eq_some_iff.1 ran
          obtain ⟨rfl, -⟩ := Prod.mk.inj ran
          rw [← hash] at found'
          exact inv.processNode fair hq isNone notRaw authentic decoded listed gathered found'

theorem Inv.process (fair : w.Fair) {results : List SyncResult} {i : ℕ} {committed : Bool}
    {r : Bool × ℕ × Option SyncErr} (inv : Inv w s [] none)
    (authentic : ∀ item ∈ results, w.content item.hash = some item.data)
    (ran : Sync.process w.leaf i committed results s = some (t, r)) : Inv w t [] none := by
  induction results generalizing s i committed with
  | nil =>
    obtain ⟨rfl, -⟩ := Prod.mk.inj (some.inj ran)
    exact inv
  | cons item rest ih =>
    obtain ⟨⟨u, result⟩, first, ran⟩ := bind_eq_some_iff.1 ran
    have inv' := inv.processItem fair (authentic item mem_cons_self) first
    cases result with
    | error e =>
      obtain ⟨rfl, -⟩ := Prod.mk.inj (some.inj ran)
      exact inv'
    | ok now => exact ih inv' (fun item hi => authentic item (mem_cons_of_mem _ hi)) ran

end Process

end Sync

end JuChain.Trie
