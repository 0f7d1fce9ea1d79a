import JuChain.Pool.Adding

/-!
# Settling on a new head

What `demoteUnexecutables` leaves of the pending transactions of an account.  Together with the
moves this covers every operation, so the index of the pool is right after every run (`sound_run`).
-/

namespace JuChain.Pool

open State Relation List Function Option

namespace Shape

/-- What is left pending: nothing if the first one is missing, otherwise all before the first that
the account cannot pay for. -/
def kept (σ : Shape) (a : Address) : Set Transaction :=
  { x | x ∈ σ.pending a ∧ σ.stateNonce a ≤ x.nonce ∧
    (∀ y ∈ σ.pending a, σ.stateNonce a ≤ y.nonce → y.nonce ≤ x.nonce → σ.Executable a y) ∧
    ∃ z ∈ σ.pending a, z.nonce = σ.stateNonce a }

/-- The account after a demotion. -/
def demote (σ : Shape) (a : Address) (queue : Set Transaction) : Shape :=
  (σ.setPending a (σ.kept a)).setQueue a queue

end Shape

namespace TxPool

variable {env : Env} {p p' : TxPool} {a : Address} {tx : Transaction} {txs loose : List Transaction}
variable {l : TxList}

/-! ## One account -/

theorem Sound.trimPending (h : p.Sound []) {rest : TxList} {out keep : List Transaction}
    (hl : p.pending.lookup a = some l) (parts : l.Parts (out ++ keep) rest) : ∃ all priced tick,
      (p.setPending a rest).forgetAll env out =
        { p with pending := p.pending.insert a rest, all := all, priced := priced, tick := tick } ∧
      Sound { p with pending := p.pending.insert a rest, all := all, priced := priced, tick := tick }
        keep := by
  have taken : (p.setPending a rest).Sound ((out ++ keep) ++ []) :=
    h.takePending hl parts (txsOf_insert _ _ _)
      (h.strict.insert a (parts.strict.trans (h.strict a l hl)))
  rw [append_nil] at taken
  have sound := @Sound.forgetAll env _ _ _ taken
  obtain ⟨all, priced, tick, heq⟩ := forgetAll_eq env (p.setPending a rest) out
  rw [heq] at sound
  exact ⟨all, priced, tick, heq, sound⟩

theorem sweepPending_spec (h : p.Sound []) (hl : p.pending.lookup a = some l) :
    ∃ all priced tick queue rest content, p.sweepPending env a l =
        ({ p with
            pending := p.pending.insert a rest
            queue := queue
            all := all
            priced := priced
            tick := tick }, rest) ∧
      Sound { p with
        pending := p.pending.insert a rest
        queue := queue
        all := all
        priced := priced
        tick := tick } [] ∧ txsOf queue = Function.update (txsOf p.queue) a content ∧
      (∀ x ∈ content, x ∈ txsOf p.queue a ∨ x ∈ l.txs) ∧
      ∀ x, x ∈ rest.txs ↔ (x ∈ l.txs ∧ p.stateNonce a ≤ x.nonce) ∧
        ∀ y ∈ l.txs, p.stateNonce a ≤ y.nonce → y.nonce ≤ x.nonce → p.shape.Executable a y := by
  have parts₁ := TxList.parts_split l fun tx => tx.nonce < p.stateNonce a
  have kept₁ (x : Transaction) := @TxList.mem_forward l (p.stateNonce a) x
  have strict₁ := parts₁.strict.trans (h.strict a l hl)
  obtain ⟨all₁, priced₁, tick₁, heq₁, sound₁⟩ := @Sound.trimPending env _ _ _ h _ _ [] hl
    (by rw [append_nil]; exact parts₁)
  unfold sweepPending
  dsimp only [TxList.forward] at kept₁ ⊢
  rw [heq₁]
  generalize (l.split fun tx => tx.nonce < p.stateNonce a).2 = l₁ at *
  have kept₂ (x : Transaction) := @TxList.mem_filter_strict l₁ strict₁ (p.currentState.getBalance a)
    p.currentMaxGas x
  have parts₂ := TxList.parts_filter l₁ (p.currentState.getBalance a) p.currentMaxGas
  obtain ⟨drops, invalids, l₂, hfilter⟩ : ∃ drops invalids l₂,
      l₁.filter (p.currentState.getBalance a) p.currentMaxGas = (drops, invalids, l₂) :=
    ⟨_, _, _, rfl⟩
  rw [hfilter] at kept₂ parts₂ ⊢
  obtain ⟨all₂, priced₂, tick₂, heq₂, sound₂⟩ := @Sound.trimPending env _ _ _ sound₁ _ _ invalids
    (AList.lookup_insert p.pending)
    (parts₂.perm ((env.transactions_perm tick₁ drops).append_right invalids))
  rw [AList.insert_insert] at heq₂ sound₂
  rw [heq₂]
  have perm := env.transactions_perm tick₂ invalids
  have held (x : Transaction) (hx : x ∈ invalids) : x ∈ l.txs :=
    ((kept₁ x).1 (parts₂.txs.mem_iff.2 (.inl (mem_append.2 (.inr hx))))).1
  obtain ⟨queue, heq₃, hqueue, sound₃⟩ := @Sound.enqueueAll env _ [] _ a
    (by rw [append_nil]; exact sound₂.perm perm)
    fun x hx => h.indexed.sender (q := .pending) ⟨l, hl, held x (perm.subset hx)⟩
  refine ⟨all₂, priced₂, tick₂, queue, l₂, _, ?_, sound₃, hqueue, fun x hx => ?_, fun x => ?_⟩
  · rw [heq₃]
  · exact hx.imp_right fun hx => held x (perm.subset hx)
  · rw [kept₂, kept₁]
    refine and_congr_right fun _ => forall_congr' fun y => ?_
    rw [kept₁]
    exact ⟨fun hy hin hold hle => ⟨hold, hy ⟨hin, hold⟩ hle⟩, fun hy hin hle => (hy hin.1 hin.2 hle).2⟩

theorem gapless_part (l : TxList) (n : ℕ) : ∃ gapped rest,
      (if 0 < l.len ∧ l.txs.get n = none then l.cap 0 else ([], l)) = (gapped, rest) ∧
      l.Parts gapped rest ∧ { x | x ∈ rest.txs } = { x | x ∈ l.txs ∧ ∃ z ∈ l.txs, z.nonce = n } := by
  split_ifs with gap
  · refine ⟨(l.cap 0).1, (l.cap 0).2, rfl, TxList.parts_cap l 0, ?_⟩
    rw [setOf_mem_of_len (l := (l.cap 0).2) rfl]
    ext x
    refine iff_of_false id ?_
    rintro ⟨-, z, hz, hn⟩
    exact SortedMap.get_eq_none_iff.1 gap.2 z hz hn
  · refine ⟨[], l, rfl, TxList.parts_nil l, ?_⟩
    ext x
    refine ⟨fun hx => ⟨hx, ?_⟩, And.left⟩
    cases hget : l.txs.get n with
    | none => exact absurd ⟨length_pos_of_mem hx, hget⟩ gap
    | some z => exact ⟨z, SortedMap.get_eq_some_iff.1 hget⟩

theorem closeGap_spec (h : p.Sound []) (hl : p.pending.lookup a = some l) :
    ∃ pending beats queue content,
      p.closeGap env a l = { p with pending := pending, beats := beats, queue := queue } ∧
      Sound { p with pending := pending, beats := beats, queue := queue } [] ∧
      txsOf queue = Function.update (txsOf p.queue) a content ∧
      (∀ x ∈ content, x ∈ txsOf p.queue a ∨ x ∈ l.txs) ∧
      txsOf pending = Function.update (txsOf p.pending) a
        { x | x ∈ l.txs ∧ ∃ z ∈ l.txs, z.nonce = p.stateNonce a } := by
  obtain ⟨gapped, rest, hcap, parts, left⟩ := gapless_part l (p.stateNonce a)
  have held (x : Transaction) (hx : x ∈ gapped) : x ∈ l.txs := parts.txs.mem_iff.2 (.inl hx)
  have content : txsOf (p.pending.insert a rest) =
      update (txsOf p.pending) a { x | x ∈ rest.txs } := txsOf_insert _ _ _
  have taken := h.takePending hl parts content
    (h.strict.insert a (parts.strict.trans (h.strict a l hl)))
  obtain ⟨queue, heq, hqueue, sound⟩ := @Sound.enqueueAll env _ [] _ a taken
    fun x hx => h.indexed.sender (q := .pending) ⟨l, hl, held x hx⟩
  have sub (x : Transaction) (hx : x ∈ txsOf p.queue a ∪ { x | x ∈ gapped }) :
      x ∈ txsOf p.queue a ∨ x ∈ l.txs := hx.imp_right (held x)
  unfold closeGap
  rw [hcap]
  dsimp only [TxPool.setPending] at heq ⊢
  rw [heq, ← left]
  split_ifs with hlen
  · have erased := txsOf_insert_erase hlen p.pending a
    refine ⟨_, _, queue, _, rfl, ?_, hqueue, sub, erased⟩
    refine Sound.congr (sound.takePending (AList.lookup_insert p.pending) (TxList.parts_nil rest) ?_
      (sound.strict.erase a)) rfl rfl rfl
    rw [erased, content, update_idem]
  · exact ⟨_, p.beats, queue, _, rfl, sound, hqueue, sub, content⟩

/-- An account without a list has nothing to keep. -/
theorem kept_of_missing (h : p.pending.lookup a = none) : p.shape.kept a = p.shape.pending a := by
  have none_in : p.shape.pending a = ∅ := txsOf_of_lookup_none h
  ext x
  rw [none_in]
  refine iff_of_false (fun hx => ?_) id
  have hx : x ∈ p.shape.pending a := hx.1
  rwa [none_in] at hx

theorem demoteAccount_spec (h : p.Sound []) (a : Address) : (p.demoteAccount env a).Sound [] ∧ ∃ queue,
      (∀ x ∈ queue, x ∈ txsOf p.queue a ∨ x ∈ txsOf p.pending a) ∧
      (p.demoteAccount env a).shape = p.shape.demote a queue := by
  unfold demoteAccount
  cases hl : p.pending.lookup a with
  | none =>
    refine ⟨h, txsOf p.queue a, fun x hx => .inl hx, ?_⟩
    unfold Shape.demote Shape.setPending Shape.setQueue
    rw [kept_of_missing hl, update_eq_self, show p.shape.queue = txsOf p.queue from rfl,
      update_eq_self]
    rfl
  | some l =>
    obtain ⟨all₁, priced₁, tick₁, queue₁, l₁, content₁, heq₁, sound₁, hqueue₁, sub₁, kept₁⟩ :=
      @sweepPending_spec env _ _ _ h hl
    dsimp only
    rw [heq₁]
    obtain ⟨pending₂, beats₂, queue₂, content₂, heq₂, sound₂, hqueue₂, sub₂, left⟩ :=
      @closeGap_spec env _ a l₁ sound₁ (AList.lookup_insert p.pending)
    rw [heq₂]
    rw [hqueue₁, update_idem] at hqueue₂
    rw [hqueue₁, update_self] at sub₂
    rw [txsOf_insert, update_idem] at left
    refine ⟨sound₂, content₂, fun x hx => ?_, ?_⟩
    · rw [txsOf_of_lookup hl]
      rcases sub₂ x hx with hx | hx
      · exact sub₁ x hx
      · exact .inr ((kept₁ x).1 hx).1.1
    · have kept : { x | x ∈ l₁.txs ∧ ∃ z ∈ l₁.txs, z.nonce = p.stateNonce a } = p.shape.kept a := by
        ext x
        unfold Shape.kept
        rw [show p.shape.pending a = { x | x ∈ l.txs } from txsOf_of_lookup hl]
        constructor
        · rintro ⟨hx, z, hz, hn⟩
          obtain ⟨⟨hin, old⟩, executable⟩ := (kept₁ x).1 hx
          exact ⟨hin, old, executable, z, ((kept₁ z).1 hz).1.1, hn⟩
        · rintro ⟨hin, old, executable, z, hz, hn⟩
          refine ⟨(kept₁ x).2 ⟨⟨hin, old⟩, executable⟩, z, (kept₁ z).2 ⟨⟨hz, hn.ge⟩, ?_⟩, hn⟩
          exact fun y hy hold hle => executable y hy hold (by omega)
      show Shape.mk p.terms (txsOf pending₂) (txsOf queue₂) p.pendingNonce p.dappPending = _
      rw [hqueue₂, left]
      show Shape.mk p.terms (update (txsOf p.pending) a
        { x | x ∈ l₁.txs ∧ ∃ z ∈ l₁.txs, z.nonce = p.stateNonce a }) _ _ _ = _
      rw [kept]
      rfl

/-! ## All accounts -/

/-- What the demotion of accounts does. -/
structure Demoted (accounts : List Address) (σ σ' : Shape) : Prop where
  terms : σ'.terms = σ.terms
  nonces : σ'.nonces = σ.nonces
  dapp : σ'.dapp = σ.dapp
  kept : ∀ a ∈ accounts, σ'.pending a = σ.kept a
  other : ∀ a ∉ accounts, σ'.pending a = σ.pending a
  queue : ∀ a, ∀ x ∈ σ'.queue a, x ∈ σ.queue a ∨ x ∈ σ.pending a

theorem kept_congr {σ σ' : Shape} (terms : σ'.terms = σ.terms)
    (pending : σ'.pending a = σ.pending a) : σ'.kept a = σ.kept a := by
  unfold Shape.kept Shape.Executable Shape.stateNonce
  rw [terms, pending]

theorem demoted_foldl {accounts : List Address} (nodup : accounts.Nodup) (h : p.Sound []) :
    (accounts.foldl (fun p a => p.demoteAccount env a) p).Sound [] ∧
      Demoted accounts p.shape (accounts.foldl (fun p a => p.demoteAccount env a) p).shape := by
  induction accounts generalizing p with
  | nil => exact ⟨h, rfl, rfl, rfl, nofun, fun _ _ => rfl, fun _ _ hx => .inl hx⟩
  | cons b accounts ih =>
    obtain ⟨fresh, nodup⟩ := nodup_cons.1 nodup
    obtain ⟨sound₁, queue, queued, heq⟩ := @demoteAccount_spec env p h b
    obtain ⟨sound, rest⟩ := ih nodup sound₁
    have other {a : Address} (hne : a ≠ b) :
        (p.demoteAccount env b).shape.pending a = p.shape.pending a := by
      rw [heq]
      exact update_of_ne hne _ _
    have here : (p.demoteAccount env b).shape.pending b = p.shape.kept b := by
      rw [heq]
      exact update_self _ _ _
    have terms : (p.demoteAccount env b).shape.terms = p.shape.terms := by
      rw [heq]
      rfl
    refine ⟨sound, rest.terms.trans terms, rest.nonces.trans (by rw [heq]; rfl),
      rest.dapp.trans (by rw [heq]; rfl), fun a ha => ?_, fun a ha => ?_, fun a x hx => ?_⟩
    · rcases mem_cons.1 ha with rfl | ha
      · exact (rest.other a fresh).trans here
      · have hne : a ≠ b := fun hab => fresh (hab ▸ ha)
        exact (rest.kept a ha).trans (kept_congr terms (other hne))
    · obtain ⟨hne, ha⟩ := not_or.1 (mem_cons.not.1 ha)
      exact (rest.other a ha).trans (other hne)
    · by_cases hab : a = b
      · subst hab
        rcases rest.queue a x hx with hx | hx
        · rw [heq, Shape.demote, Shape.setQueue] at hx
          exact queued x (by simpa using hx)
        · rw [here] at hx
          exact .inr hx.1
      · rcases rest.queue a x hx with hx | hx
        · rw [heq] at hx
          exact .inl (by simpa [Shape.demote, Shape.setQueue, Shape.setPending, hab] using hx)
        · rw [other hab] at hx
          exact .inr hx

theorem demoteUnexecutables_spec (h : p.Sound []) : (p.demoteUnexecutables env).Sound [] ∧
      (p.demoteUnexecutables env).shape.terms = p.shape.terms ∧
      (p.demoteUnexecutables env).shape.nonces = p.shape.nonces ∧
      (p.demoteUnexecutables env).shape.dapp = p.shape.dapp ∧
      (p.demoteUnexecutables env).shape.pending = p.shape.kept ∧
      ∀ a, ∀ x ∈ (p.demoteUnexecutables env).shape.queue a,
        x ∈ p.shape.queue a ∨ x ∈ p.shape.pending a := by
  have perm := env.addresses_perm p.tick p.pending.keys
  obtain ⟨sound, demoted⟩ := @demoted_foldl env { p with tick := p.tick + 1 } _
    (perm.nodup_iff.2 p.pending.keys_nodup) (h.congr rfl rfl rfl)
  refine ⟨sound, demoted.terms, demoted.nonces, demoted.dapp, funext fun a => ?_, demoted.queue⟩
  by_cases ha : a ∈ env.addresses p.tick p.pending.keys
  · exact demoted.kept a ha
  · refine (demoted.other a ha).trans ?_
    have missing : p.pending.lookup a = none := by
      rw [AList.lookup_eq_none]
      exact fun hin => ha (perm.mem_iff.2 hin)
    exact (kept_of_missing missing).symm

/-! ## The nonces -/

theorem nextNonce_of_last {last : Transaction} (hlast : last ∈ l.txs)
    (top : ∀ y ∈ l.txs, y.nonce ≤ last.nonce) : nextNonce l = some ((last.nonce + 1) % 2 ^ 64) := by
  unfold nextNonce
  have hlast : last ∈ l.txs.items := hlast
  cases hget : l.txs.items.getLast? with
  | none =>
    rw [getLast?_eq_none_iff.1 hget] at hlast
    exact nomatch hlast
  | some x =>
    obtain ⟨front, hitems⟩ := getLast?_eq_some_iff.1 hget
    have hx : x ∈ l.txs := mem_of_getLast? hget
    have sorted := l.txs.sorted
    have below : last.nonce ≤ x.nonce := by
      rw [hitems] at hlast sorted
      rcases mem_append.1 hlast with hlast | hlast
      · exact ((pairwise_append.1 sorted).2.2 last hlast x (mem_singleton_self x)).le
      · rw [mem_singleton.1 hlast]
    rw [map_some, le_antisymm (top x hx) below]

theorem nextNonce_of_empty (h : ∀ x, x ∉ l.txs) : nextNonce l = none := by
  have nil : l.txs.items = [] := eq_nil_iff_forall_not_mem.2 h
  unfold nextNonce
  rw [nil]
  rfl

theorem updateNonces_foldl (entries : List (Sigma fun _ : Address => TxList))
    (nodup : entries.NodupKeys) (p : TxPool) : ∃ nonces,
      entries.foldl (fun p e => ((nextNonce e.2).map (p.setNonce e.1 ·)).getD p) p =
        { p with pendingNonce := nonces } ∧
      ∀ a, nonces a = ((entries.dlookup a).bind nextNonce).getD (p.pendingNonce a) := by
  induction entries generalizing p with
  | nil => exact ⟨p.pendingNonce, rfl, fun a => rfl⟩
  | cons e entries ih =>
    obtain ⟨b, l⟩ := e
    obtain ⟨fresh, nodup⟩ := List.nodupKeys_cons.1 nodup
    have missing : entries.dlookup b = none := List.dlookup_eq_none.2 fresh
    have other {a : Address} (ha : a ≠ b) :
        (⟨b, l⟩ :: entries : List (Sigma fun _ : Address => TxList)).dlookup a = entries.dlookup a :=
      List.dlookup_cons_ne entries ⟨b, l⟩ ha
    rw [List.foldl_cons]
    cases hnext : nextNonce l with
    | none =>
      obtain ⟨nonces, heq, hnonces⟩ := ih nodup p
      refine ⟨nonces, heq, fun a => ?_⟩
      rw [hnonces]
      by_cases ha : a = b
      · subst ha
        rw [missing, List.dlookup_cons_eq, Option.bind_some, hnext]
        rfl
      · rw [other ha]
    | some n =>
      obtain ⟨nonces, heq, hnonces⟩ := ih nodup (p.setNonce b n)
      refine ⟨nonces, heq, fun a => ?_⟩
      rw [hnonces]
      by_cases ha : a = b
      · subst ha
        rw [missing, List.dlookup_cons_eq, Option.bind_some, hnext]
        exact Function.update_self _ _ _
      · rw [other ha]
        exact congrArg (Option.getD _) (Function.update_of_ne ha _ _)

theorem updateNonces_spec (p : TxPool) : ∃ nonces, p.updateNonces = { p with pendingNonce := nonces } ∧
      (∀ a, txsOf p.pending a = ∅ → nonces a = p.pendingNonce a) ∧
      ∀ a, ∀ last ∈ txsOf p.pending a, (∀ y ∈ txsOf p.pending a, y.nonce ≤ last.nonce) →
        nonces a = (last.nonce + 1) % 2 ^ 64 := by
  obtain ⟨nonces, heq, hnonces⟩ := updateNonces_foldl p.pending.entries p.pending.nodupKeys p
  have read (a : Address) : nonces a = ((p.pending.lookup a).bind nextNonce).getD (p.pendingNonce a) :=
    hnonces a
  refine ⟨nonces, heq, fun a empty => ?_, fun a last hlast top => ?_⟩
  · rw [read]
    cases hl : p.pending.lookup a with
    | none => rfl
    | some l =>
      rw [txsOf_of_lookup hl] at empty
      rw [bind_some, nextNonce_of_empty (Set.eq_empty_iff_forall_notMem.1 empty)]
      rfl
  · obtain ⟨l, hl, hlast⟩ := hlast
    rw [read, hl, bind_some, nextNonce_of_last hlast fun y hy => top y ⟨l, hl, hy⟩]
    rfl

/-! ## Runs -/

theorem settle_spec (h : p.Sound []) :
    ∃ q : TxPool, p.settle env = q.promoteQueued env ∧ q.Sound [] ∧ q.terms = p.terms ∧
      q.dappPending = p.dappPending ∧ txsOf q.pending = p.shape.kept ∧
      (∀ a, ∀ x ∈ txsOf q.queue a, x ∈ txsOf p.queue a ∨ x ∈ txsOf p.pending a) ∧
      (∀ a, p.shape.kept a = ∅ → q.pendingNonce a = p.pendingNonce a) ∧
      ∀ a, ∀ last ∈ p.shape.kept a, (∀ y ∈ p.shape.kept a, y.nonce ≤ last.nonce) →
        q.pendingNonce a = (last.nonce + 1) % 2 ^ 64 := by
  have ticked : Sound { p with tick := p.tick + 1 } [] := h.congr rfl rfl rfl
  obtain ⟨sound, terms, nonces, dapp, pending, queue⟩ := @demoteUnexecutables_spec env _ ticked
  obtain ⟨nonces', heq, empty, last⟩ :=
    updateNonces_spec (demoteUnexecutables env { p with tick := p.tick + 1 })
  have pending : txsOf (demoteUnexecutables env { p with tick := p.tick + 1 }).pending = p.shape.kept :=
    pending
  rw [pending] at empty last
  refine ⟨updateNonces (demoteUnexecutables env { p with tick := p.tick + 1 }), rfl, ?_⟩
  rw [heq]
  exact ⟨sound.congr rfl rfl rfl, terms, dapp, pending, queue,
    fun a none_in => (empty a none_in).trans (congrFun nonces a), last⟩

theorem sound_settle (h : p.Sound []) : (p.settle env).Sound [] := by
  obtain ⟨q, heq, sound, -⟩ := @settle_spec env _ h
  rw [heq]
  exact (@leads_promoteQueued env (fun _ => False) false _ sound).1

theorem reset_cases {ev : HeadChange} {blocks : List DAppBlock}
    (h : p.reset env ev = some (p', blocks)) :
    (p' = p ∧ blocks = []) ∨ ∃ txs state b, ev.reinject = .offers txs ∧
      ev.chain.stateAt ev.newHead.root = some state ∧ ev.newBlock = some b ∧
      ((p.follow state ev.newHead).addTxsLocked env txs false).packageDApps env b = some blocks ∧
      p' = ((p.follow state ev.newHead).addTxsLocked env txs false).settle env := by
  unfold reset at h
  cases hreinject : ev.reinject with
  | panics => simp [hreinject] at h
  | unrooted =>
    rw [hreinject] at h
    obtain ⟨rfl, rfl⟩ := Prod.mk.inj (some.inj h)
    exact .inl ⟨rfl, rfl⟩
  | offers txs =>
    rw [hreinject] at h
    cases hstate : ev.chain.stateAt ev.newHead.root with
    | none =>
      rw [hstate] at h
      obtain ⟨rfl, rfl⟩ := Prod.mk.inj (some.inj h)
      exact .inl ⟨rfl, rfl⟩
    | some state =>
      rw [hstate] at h
      obtain ⟨b, hb, h⟩ := bind_eq_some_iff.1 h
      obtain ⟨built, hbuilt, heq⟩ := map_eq_some_iff.1 h
      obtain ⟨rfl, rfl⟩ := Prod.mk.inj heq
      exact .inr ⟨txs, state, b, rfl, rfl, hb, hbuilt, rfl⟩

/-- The transactions that a call offers to the pool. -/
def Op.Enters : Op → Transaction → Prop
  | .addLocal t, tx => tx = t
  | .addRemote t, tx => tx = t
  | .addLocals ts, tx => tx ∈ ts
  | .addRemotes ts, tx => tx ∈ ts
  | .setGasPrice _, _ => False
  | .reset ev, tx => ∃ txs, ev.reinject = .offers txs ∧ tx ∈ txs
  | .evict, _ => False

/-- A step makes moves, or it follows a new head. -/
theorem step_cases {op : Op} (hs : p.step env op = some p') :
    (∃ price isLocal, Leads env op.Enters isLocal { p with gasPrice := price } p') ∨
      ∃ ev txs state, op = .reset ev ∧ ev.reinject = .offers txs ∧
        ev.chain.stateAt ev.newHead.root = some state ∧
        p' = ((p.follow state ev.newHead).addTxsLocked env txs false).settle env := by
  obtain ⟨⟨q, blocks⟩, hexec, rfl⟩ := map_eq_some_iff.1 hs
  cases op with
  | addLocal tx | addRemote tx =>
    obtain ⟨rfl, -⟩ := Prod.mk.inj (some.inj hexec)
    exact .inl ⟨p.gasPrice, _, leads_addTx p tx _⟩
  | addLocals txs | addRemotes txs =>
    obtain ⟨rfl, -⟩ := Prod.mk.inj (some.inj hexec)
    exact .inl ⟨p.gasPrice, _, leads_addTxsLocked p txs _⟩
  | setGasPrice price =>
    obtain ⟨rfl, -⟩ := Prod.mk.inj (some.inj hexec)
    exact .inl ⟨price, false, leads_setGasPrice p price⟩
  | evict =>
    obtain ⟨rfl, -⟩ := Prod.mk.inj (some.inj hexec)
    exact .inl ⟨p.gasPrice, false, leads_evict p⟩
  | reset ev =>
    rcases reset_cases hexec with ⟨rfl, -⟩ | ⟨txs, state, b, hreinject, hstate, -, -, rfl⟩
    · exact .inl ⟨q.gasPrice, false, .refl q⟩
    · exact .inr ⟨ev, txs, state, rfl, hreinject, hstate, rfl⟩

theorem sound_step {op : Op} (h : p.Sound []) (hs : p.step env op = some p') : p'.Sound [] := by
  rcases step_cases hs with ⟨price, isLocal, leads⟩ | ⟨ev, txs, state, -, -, -, rfl⟩
  · exact (leads (h.congr rfl rfl rfl)).1
  · have followed : (p.follow state ev.newHead).Sound [] := h.congr rfl rfl rfl
    exact sound_settle (leads_addTxsLocked _ txs false followed).1

theorem sound_new (gasPrice : ℤ) (state : StateDB) (maxGas : UInt64) :
    (TxPool.new gasPrice state maxGas).Sound [] := by
  have none_in (q : Place) (a : Address) (x : Transaction) :
      x ∉ (TxPool.new gasPrice state maxGas).view.lists q a := by
    cases q <;> exact fun ⟨l, hl, _⟩ => nomatch hl
  have none_held (x : Transaction) : ¬(TxPool.new gasPrice state maxGas).view.Held [] x := by
    rintro (⟨q, a, hx⟩ | hx)
    · exact none_in q a x hx
    · exact nomatch hx
  exact
    { indexed :=
        { mem_all := fun _ x => iff_of_false nofun fun hx => none_held x hx.2
          sender := fun hx => absurd hx (none_in _ _ _)
          slots := fun hx => absurd hx (none_held _)
          place := fun hx => absurd hx (none_in _ _ _)
          loose_sender := fun hx => absurd hx not_mem_nil
          loose_out := fun hx => absurd hx not_mem_nil
          nodup := .nil }
      strict := fun _ _ hl => nomatch hl
      lax := fun _ _ hl => nomatch hl }

theorem sound_run {gasPrice : ℤ} {state : StateDB} {maxGas : UInt64} {ops : List Op}
    (ran : Runs.run (step env) (TxPool.new gasPrice state maxGas) ops = some p) : p.Sound [] :=
  Runs.run_invariant (fun _ _ _ => sound_step) (sound_new gasPrice state maxGas) ran

end TxPool

end JuChain.Pool
