import JuChain.Pool.Index

/-!
# What the parts of an operation do to the lists

For each part of the operations of the pool: which transactions are where afterwards, that the index
is kept (`Sound`), and that everything else is left alone, stated as an equation.
-/

namespace JuChain.Pool

open List Function Option AList

variable (lists : Lists) {out : List Transaction} {strict : Bool}

/-! ## The view of a pool -/

/-- The transactions of an account. -/
def txsOf (a : Address) : Set Transaction :=
  { tx | ∃ l, lists.lookup a = some l ∧ tx ∈ l.txs }

variable {l : TxList}

theorem txsOf_of_lookup {lists : Lists} {a : Address} (h : lists.lookup a = some l) :
    txsOf lists a = { tx | tx ∈ l.txs } := by
  ext tx
  constructor
  · rintro ⟨l', hl', htx⟩
    obtain rfl := some.inj (h.symm.trans hl')
    exact htx
  · exact fun htx => ⟨l, h, htx⟩

theorem txsOf_of_lookup_none {lists : Lists} {a : Address} (h : lists.lookup a = none) :
    txsOf lists a = ∅ := by
  ext tx
  constructor
  · rintro ⟨l, hl, -⟩
    exact nomatch h.symm.trans hl
  · exact False.elim

theorem txsOf_insert (a : Address) (l : TxList) :
    txsOf (lists.insert a l) = update (txsOf lists) a { tx | tx ∈ l.txs } := by
  funext b
  by_cases hb : b = a
  · subst hb
    rw [update_self, txsOf_of_lookup (lookup_insert lists)]
  · rw [update_of_ne hb]
    unfold txsOf
    rw [lookup_insert_ne hb]

theorem txsOf_erase (a : Address) : txsOf (lists.erase a) = update (txsOf lists) a ∅ := by
  funext b
  by_cases hb : b = a
  · subst hb
    rw [update_self, txsOf_of_lookup_none (lookup_erase b lists)]
  · rw [update_of_ne hb]
    unfold txsOf
    rw [lookup_erase_ne hb]

/-- All lists are strict, or none is. -/
def Mode (strict : Bool) : Prop :=
  ∀ a l, lists.lookup a = some l → l.strict = strict

theorem Mode.insert {lists : Lists} (h : Mode lists strict) (a : Address)
    (hl : l.strict = strict) : Mode (lists.insert a l) strict := by
  intro b l' hl'
  by_cases hb : b = a
  · subst hb
    rw [lookup_insert] at hl'
    exact some.inj hl' ▸ hl
  · rw [lookup_insert_ne hb] at hl'
    exact h b l' hl'

theorem Mode.erase {lists : Lists} (h : Mode lists strict) (a : Address) :
    Mode (lists.erase a) strict := by
  intro b l hl
  by_cases hb : b = a
  · subst hb
    rw [lookup_erase] at hl
    exact nomatch hl
  · rw [lookup_erase_ne hb] at hl
    exact h b l hl

/-- The list is put back, unless it is empty. -/
def shelve (a : Address) (l : TxList) : Lists :=
  if l.len = 0 then lists.erase a else lists.insert a l

theorem setOf_mem_of_len (h : l.len = 0) : { tx | tx ∈ l.txs } = ∅ := by
  ext tx
  refine iff_of_false (fun htx => ?_) id
  have htx : tx ∈ l.txs.items := htx
  rw [eq_nil_of_length_eq_zero h] at htx
  exact nomatch htx

theorem txsOf_insert_erase (h : l.len = 0) (lists : Lists) (a : Address) :
    txsOf ((lists.insert a l).erase a) = update (txsOf lists) a { x | x ∈ l.txs } := by
  rw [txsOf_erase, txsOf_insert, update_idem, setOf_mem_of_len h]

theorem txsOf_shelve (a : Address) (l : TxList) :
    txsOf (shelve lists a l) = update (txsOf lists) a { tx | tx ∈ l.txs } := by
  unfold shelve
  split_ifs with h
  · rw [txsOf_erase, setOf_mem_of_len h]
  · exact txsOf_insert lists a l

theorem Mode.shelve {lists : Lists} {strict : Bool} (h : Mode lists strict) (a : Address)
    (hl : l.strict = strict) : Mode (shelve lists a l) strict := by
  unfold JuChain.Pool.shelve
  split_ifs
  · exact h.erase a
  · exact h.insert a hl

namespace TxPool

variable {env : Env} {p : TxPool} {loose txs : List Transaction} {a : Address} {tx : Transaction}

/-- The lists and `all`, as sets. -/
def view (p : TxPool) : View where
  lists
    | .pending => txsOf p.pending
    | .queue => txsOf p.queue
  all h := p.all.lookup h

/-- The index of the pool is right, and its lists have the modes they are made with. -/
structure Sound (p : TxPool) (loose : List Transaction) : Prop where
  indexed : p.view.Indexed loose
  strict : Mode p.pending true
  lax : Mode p.queue false

theorem view_pending (p : TxPool) {pending : Lists} {content : Set Transaction}
    (h : txsOf pending = update (txsOf p.pending) a content) :
    view { p with pending := pending } = p.view.set .pending a content := by
  ext1
  · funext q
    cases q with
    | pending => exact h
    | queue => rfl
  · rfl

theorem view_queue (p : TxPool) {queue : Lists} {content : Set Transaction}
    (h : txsOf queue = update (txsOf p.queue) a content) :
    view { p with queue := queue } = p.view.set .queue a content := by
  ext1
  · funext q
    cases q with
    | pending => rfl
    | queue => exact h
  · rfl

theorem Sound.congr (h : p.Sound loose) {p' : TxPool} (pending : p'.pending = p.pending)
    (queue : p'.queue = p.queue) (all : p'.all = p.all) : p'.Sound loose := by
  have view : p'.view = p.view := by
    unfold TxPool.view
    rw [pending, queue, all]
  exact ⟨view ▸ h.indexed, pending ▸ h.strict, queue ▸ h.lax⟩

theorem lookup_erase (all : TxIndex) (h h' : Hash) :
    (all.erase h).lookup h' = Function.update (fun h => all.lookup h) h none h' := by
  by_cases hh : h' = h
  · subst hh
    rw [update_self, AList.lookup_erase]
  · rw [update_of_ne hh, AList.lookup_erase_ne hh]

theorem lookup_insert (all : TxIndex) (tx : Transaction) (h : Hash) : (all.insert tx.hash tx).lookup h =
      Function.update (fun h => all.lookup h) tx.hash (some tx) h := by
  by_cases hh : h = tx.hash
  · subst hh
    rw [update_self, AList.lookup_insert]
  · rw [update_of_ne hh, AList.lookup_insert_ne hh]

theorem view_eraseAll (p : TxPool) (h : Hash) :
    view { p with all := p.all.erase h } = p.view.erase h := by
  ext1
  · rfl
  · funext h'
    exact lookup_erase p.all h h'

theorem view_remember (p : TxPool) (tx : Transaction) : (p.remember tx).view = p.view.record tx := by
  ext1
  · rfl
  · funext h
    exact lookup_insert p.all tx h

theorem forgetAll_eq (env : Env) (p : TxPool) (txs : List Transaction) : ∃ all priced tick,
      p.forgetAll env txs = { p with all := all, priced := priced, tick := tick } := by
  induction txs generalizing p with
  | nil => exact ⟨p.all, p.priced, p.tick, rfl⟩
  | cons tx txs ih => exact ih (p.forget env tx.hash)

theorem Sound.perm (h : p.Sound loose) {loose' : List Transaction} (perm : loose'.Perm loose) :
    p.Sound loose' := ⟨h.indexed.perm perm, h.strict, h.lax⟩

theorem view_forget (env : Env) (p : TxPool) (h : Hash) : (p.forget env h).view = p.view.erase h :=
  view_eraseAll p h

theorem Sound.forget (h : p.Sound (tx :: loose)) : (p.forget env tx.hash).Sound loose := by
  refine ⟨?_, h.strict, h.lax⟩
  rw [view_forget]
  exact h.indexed.drop

theorem Sound.forgetAll (h : p.Sound (txs ++ loose)) : (p.forgetAll env txs).Sound loose := by
  induction txs generalizing p with
  | nil => exact h
  | cons tx txs ih => exact ih (Sound.forget h)

theorem nodup_of_nonces (h : out.Pairwise fun x y => x.nonce ≠ y.nonce) : out.Nodup :=
  h.imp fun hne heq => hne (congrArg (fun tx => tx.nonce) heq)

theorem Sound.taken (h : p.Sound loose) {q : Place} {l rest : TxList}
    (hl : p.view.lists q a = { tx | tx ∈ l.txs }) (parts : l.Parts out rest) :
    (p.view.set q a { tx | tx ∈ rest.txs }).Indexed (out ++ loose) := by
  refine h.indexed.take (fun x => ?_) (fun x hx hrest => parts.txs.key_ne hx hrest rfl)
    (nodup_of_nonces parts.txs.out_keys_ne)
  rw [hl]
  exact parts.txs.mem_iff

theorem Sound.takePending (h : p.Sound loose) {l rest : TxList}
    (hl : p.pending.lookup a = some l) (parts : l.Parts out rest) {pending : Lists}
    (content : txsOf pending = update (txsOf p.pending) a { tx | tx ∈ rest.txs })
    (mode : Mode pending true) : Sound { p with pending := pending } (out ++ loose) := by
  refine ⟨?_, mode, h.lax⟩
  rw [view_pending p content]
  exact h.taken (txsOf_of_lookup hl) parts

theorem Sound.takeQueue (h : p.Sound loose) {l rest : TxList}
    (hl : p.queue.lookup a = some l) (parts : l.Parts out rest) {queue : Lists}
    (content : txsOf queue = update (txsOf p.queue) a { tx | tx ∈ rest.txs })
    (mode : Mode queue false) : Sound { p with queue := queue } (out ++ loose) := by
  refine ⟨?_, h.strict, mode⟩
  rw [view_queue p content]
  exact h.taken (txsOf_of_lookup hl) parts

/-! ## Queueing -/

variable {y : Transaction}

theorem Sound.free (h : p.Sound (tx :: loose)) (sender : tx.sender = some a) {q : Place}
    (hy : y ∈ p.view.lists q a) : y.nonce ≠ tx.nonce := by
  intro heq
  have same : y = tx := h.indexed.slots (.inl ⟨q, a, hy⟩) (.inr mem_cons_self)
    ((h.indexed.sender hy).trans sender.symm) heq
  exact h.indexed.loose_out mem_cons_self q a (same ▸ hy)

theorem Sound.apart (h : p.Sound loose) {x : Transaction} (hx : x ∈ txsOf p.pending a)
    (hy : y ∈ txsOf p.queue a) : x.nonce ≠ y.nonce := by
  intro heq
  have hx : x ∈ p.view.lists .pending a := hx
  have hy : y ∈ p.view.lists .queue a := hy
  obtain rfl := h.indexed.slots (.inl ⟨_, _, hx⟩) (.inl ⟨_, _, hy⟩)
    ((h.indexed.sender hx).trans (h.indexed.sender hy).symm) heq
  exact nomatch h.indexed.place hx hy

theorem Sound.lookup (h : p.Sound (tx :: loose)) : p.all.lookup tx.hash = some tx :=
  (h.indexed.mem_all tx.hash tx).2 ⟨rfl, .inr mem_cons_self⟩

theorem Sound.rememberNew_eq (h : p.Sound (tx :: loose)) {q : TxPool} (same : q.all = p.all) :
    q.rememberNew tx = q := by
  unfold rememberNew
  rw [same, h.lookup]
  rfl

theorem setOf_put {l : TxList} {tx : Transaction} (free : ∀ y ∈ l.txs, y.nonce ≠ tx.nonce) :
    { y | y ∈ (l.put tx).txs } = Insert.insert tx { y | y ∈ l.txs } := by
  ext y
  show y ∈ (l.put tx).txs ↔ y = tx ∨ y ∈ l.txs
  rw [TxList.mem_put]
  refine or_congr_right ⟨And.left, fun hy => ⟨hy, free y hy⟩⟩

/-- The list of an account, made if it is missing. -/
def listOr (strict : Bool) (a : Address) : TxList :=
  (lists.lookup a).getD (newTxList strict)

theorem mem_listOr {lists : Lists} {a : Address} :
    y ∈ (listOr lists strict a).txs ↔ y ∈ txsOf lists a := by
  unfold listOr
  cases hl : lists.lookup a with
  | none =>
    rw [txsOf_of_lookup_none hl]
    exact iff_of_false (SortedMap.notMem_empty y) id
  | some l =>
    rw [txsOf_of_lookup hl]
    rfl

theorem txsOf_put {lists : Lists} (free : ∀ y ∈ (listOr lists strict a).txs, y.nonce ≠ tx.nonce) :
    txsOf (lists.insert a ((listOr lists strict a).put tx)) =
      update (txsOf lists) a (Insert.insert tx (txsOf lists a)) := by
  rw [txsOf_insert, setOf_put free]
  congr 2
  ext y
  exact mem_listOr

theorem strict_listOr {lists : Lists} (h : Mode lists strict) (a : Address) :
    (listOr lists strict a).strict = strict := by
  unfold listOr
  cases hl : lists.lookup a with
  | none => rfl
  | some l => exact h a l hl

theorem enqueueTx_of_add {list : TxList} {old : Option Transaction}
    (h : (listOr p.queue false (tx.sender.getD 0)).add tx env.config.priceBump = some (list, old)) :
    p.enqueueTx env tx =
      (((p.setQueue (tx.sender.getD 0) list).forgetAll env old.toList).rememberNew tx,
        .ok old.isSome) := by
  unfold enqueueTx
  dsimp only
  cases hl : p.queue.lookup (tx.sender.getD 0) with
  | some l =>
    rw [listOr, hl] at h
    simp only [isNone_some, Bool.false_eq_true, if_false, hl, h]
  | none =>
    rw [listOr, hl] at h
    have made : (p.setQueue (tx.sender.getD 0) (newTxList false)).queue.lookup (tx.sender.getD 0) =
        some (newTxList false) := AList.lookup_insert p.queue
    have twice : (p.setQueue (tx.sender.getD 0) (newTxList false)).setQueue (tx.sender.getD 0) list =
        p.setQueue (tx.sender.getD 0) list := by
      unfold setQueue
      simp only [AList.insert_insert]
    simp only [isNone_none, if_true, made, getD_some]
    rw [getD_none] at h
    simp only [h, twice]

theorem enqueueTx_of_reject
    (h : (listOr p.queue false (tx.sender.getD 0)).add tx env.config.priceBump = none) :
    p.enqueueTx env tx = (p, .error .replaceUnderpriced) := by
  unfold enqueueTx
  cases hl : p.queue.lookup (tx.sender.getD 0) with
  | some l =>
    rw [listOr, hl] at h
    simp only [isNone_some, Bool.false_eq_true, if_false, hl, h]
  | none =>
    rw [listOr, hl, getD_none, TxList.add_of_free] at h
    · exact nomatch h
    · exact fun y hy => absurd hy (SortedMap.notMem_empty y)

theorem Sound.enqueueTx (h : p.Sound (tx :: loose)) (sender : tx.sender = some a) :
    ∃ queue, (p.enqueueTx env tx).1 = { p with queue := queue } ∧
      txsOf queue = update (txsOf p.queue) a (Insert.insert tx (txsOf p.queue a)) ∧
      Sound { p with queue := queue } loose := by
  have free : ∀ y ∈ (listOr p.queue false a).txs, y.nonce ≠ tx.nonce := fun y hy =>
    h.free (q := .queue) sender (mem_listOr.1 hy)
  have enqueued := enqueueTx_of_add
    (by rw [sender]; exact TxList.add_of_free free env.config.priceBump)
  refine ⟨p.queue.insert a ((listOr p.queue false a).put tx), ?_, txsOf_put free, ?_, h.strict,
    h.lax.insert a (strict_listOr h.lax a)⟩
  · rw [enqueued, sender]
    exact h.rememberNew_eq rfl
  · rw [view_queue p (txsOf_put free)]
    exact h.indexed.put sender

theorem insert_union_setOf (s : Set Transaction) :
    Insert.insert tx s ∪ { x | x ∈ txs } = s ∪ { x | x ∈ tx :: txs } := by
  ext x
  simp only [Set.mem_union, Set.mem_insert_iff, Set.mem_ofPred_eq, mem_cons]
  tauto

theorem Sound.enqueueAll (h : p.Sound (txs ++ loose)) (senders : ∀ x ∈ txs, x.sender = some a) :
    ∃ queue, p.enqueueAll env txs = { p with queue := queue } ∧
      txsOf queue = update (txsOf p.queue) a (txsOf p.queue a ∪ { x | x ∈ txs }) ∧
      Sound { p with queue := queue } loose := by
  induction txs generalizing p with
  | nil =>
    refine ⟨p.queue, rfl, ?_, h⟩
    simp
  | cons tx txs ih =>
    obtain ⟨queue, heq, hqueue, sound⟩ := @Sound.enqueueTx env _ _ _ _ h
      (senders tx mem_cons_self)
    obtain ⟨queue', heq', hqueue', sound'⟩ := ih sound
      fun x hx => senders x (mem_cons_of_mem tx hx)
    refine ⟨queue', ?_, ?_, sound'⟩
    · show TxPool.enqueueAll env (p.enqueueTx env tx).1 txs = _
      rw [heq, heq']
    · rw [hqueue']
      rw [hqueue, update_idem, update_self, insert_union_setOf]

/-! ## Promoting -/

/-- The next nonce of an account after a run of transactions was promoted. -/
def nonceAfter (nonces : Address → ℕ) (a : Address) (txs : List Transaction) : Address → ℕ :=
  (txs.getLast?.map fun last => Function.update nonces a ((last.nonce + 1) % 2 ^ 64)).getD nonces

theorem Sound.promoteTx (h : p.Sound (tx :: loose)) (sender : tx.sender = some a) :
    ∃ pending beats tick,
      p.promoteTx env a tx =
        { p with
          pending := pending
          beats := beats
          tick := tick
          dappPending := promoteDApp env p.dappPending tx
          pendingNonce := update p.pendingNonce a ((tx.nonce + 1) % 2 ^ 64) } ∧
      txsOf pending = update (txsOf p.pending) a (Insert.insert tx (txsOf p.pending a)) ∧
      Sound { p with pending := pending } loose := by
  have free : ∀ y ∈ (listOr p.pending true a).txs, y.nonce ≠ tx.nonce := fun y hy =>
    h.free (q := .pending) sender (mem_listOr.1 hy)
  have added : ((p.pending.lookup a).getD (newTxList true)).add tx env.config.priceBump =
      some ((listOr p.pending true a).put tx, none) :=
    TxList.add_of_free free env.config.priceBump
  have kept : rememberNew
      (TxPool.forgetAll env (p.setPending a ((listOr p.pending true a).put tx)) []) tx =
      p.setPending a ((listOr p.pending true a).put tx) := h.rememberNew_eq rfl
  refine ⟨p.pending.insert a ((listOr p.pending true a).put tx), p.beats.insert a (env.clock p.tick),
    p.tick + 1, ?_, txsOf_put free, ?_, h.strict.insert a (strict_listOr h.strict a), h.lax⟩
  · unfold TxPool.promoteTx
    dsimp only
    rw [added]
    dsimp only [toList]
    rw [kept]
    rfl
  · rw [view_pending p (txsOf_put free)]
    exact h.indexed.put sender

theorem Sound.promoteAll (h : p.Sound (txs ++ loose)) (senders : ∀ x ∈ txs, x.sender = some a) :
    ∃ pending beats tick, p.promoteAll env a txs =
        { p with
          pending := pending
          beats := beats
          tick := tick
          dappPending := txs.foldl (promoteDApp env) p.dappPending
          pendingNonce := nonceAfter p.pendingNonce a txs } ∧
      txsOf pending = update (txsOf p.pending) a (txsOf p.pending a ∪ { x | x ∈ txs }) ∧
      Sound { p with pending := pending } loose := by
  induction txs generalizing p with
  | nil =>
    refine ⟨p.pending, p.beats, p.tick, rfl, ?_, h⟩
    simp
  | cons tx txs ih =>
    obtain ⟨pending, beats, tick, heq, hpending, sound⟩ := @Sound.promoteTx env _ _ _ _ h
      (senders tx mem_cons_self)
    have sound₁ : (p.promoteTx env a tx).Sound (txs ++ loose) := by
      rw [heq]
      exact ⟨sound.indexed, sound.strict, sound.lax⟩
    obtain ⟨pending', beats', tick', heq', hpending', sound'⟩ := ih sound₁
      fun x hx => senders x (mem_cons_of_mem tx hx)
    refine ⟨pending', beats', tick', ?_, ?_, ?_⟩
    · show TxPool.promoteAll env (p.promoteTx env a tx) a txs = _
      rw [heq', heq]
      unfold nonceAfter
      rw [getLast?_cons]
      cases txs.getLast? with
      | none => rfl
      | some last => simp
    · rw [hpending', heq]
      rw [hpending, update_idem, update_self, insert_union_setOf]
    · rw [heq] at sound'
      exact ⟨sound'.indexed, sound'.strict, sound'.lax⟩

end TxPool

end JuChain.Pool
