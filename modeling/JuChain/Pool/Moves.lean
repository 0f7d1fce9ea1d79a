import JuChain.Pool.Effects
import Mathlib.Logic.Relation

/-!
# The moves of a pool

Whatever the pool does between two heads is made of six moves; every operation is a path of them
(`Leads`).
-/

namespace JuChain.Pool

open State Relation List Function Option

variable {new : Transaction → Prop}

/-! ## Shapes and moves -/

/-- What the checks of the pool depend on. -/
structure Terms where
  currentState : StateDB
  currentMaxGas : UInt64
  gasPrice : ℤ
  locals : List Address

/-- What the pool holds: the content of the lists, without their representation. -/
structure Shape where
  terms : Terms
  pending : Address → Set Transaction
  queue : Address → Set Transaction
  nonces : Address → ℕ
  dapp : Lists

namespace Shape

variable (σ : Shape)

/-- The nonce in the state. -/
def stateNonce (a : Address) : ℕ := (σ.terms.currentState.getNonce a).toNat

/-- The transaction is not too old, and the account can pay for it. -/
def Executable (a : Address) (tx : Transaction) : Prop :=
  σ.stateNonce a ≤ tx.nonce ∧
    TxList.exceeds (σ.terms.currentState.getBalance a) σ.terms.currentMaxGas tx = false

/-- The queued transactions that become pending: the longest run of nonces from the lowest one,
unless the account has to wait. -/
structure Ready (σ : Shape) (a : Address) (out : List Transaction) : Prop where
  queued : ∀ x ∈ out, x ∈ σ.queue a ∧ σ.Executable a x
  waiting : out = [] → ∀ x ∈ σ.queue a, σ.Executable a x → σ.nonces a < x.nonce
  run : out ≠ [] → ∃ first, (out.map fun x => x.nonce) = List.range' first out.length ∧
    first ≤ σ.nonces a ∧
    ∀ x ∈ σ.queue a, σ.Executable a x → x ∈ out ∨ first + out.length < x.nonce

/-- Set the queue of an account. -/
def setQueue (a : Address) (queue : Set Transaction) : Shape :=
  { σ with queue := update σ.queue a queue }

/-- Set the pending transactions of an account. -/
def setPending (a : Address) (pending : Set Transaction) : Shape :=
  { σ with pending := update σ.pending a pending }

/-- The transaction replaces the one with its nonce. -/
def put (txs : Set Transaction) (tx : Transaction) : Set Transaction :=
  Insert.insert tx { x | x ∈ txs ∧ x.nonce ≠ tx.nonce }

/-- The pending transactions from a nonce on are taken out. -/
def cut (a : Address) (n : ℕ) (queue : Set Transaction) : Shape :=
  { (σ.setPending a { x | x ∈ σ.pending a ∧ x.nonce < n }).setQueue a queue with
    nonces := update σ.nonces a (min (σ.nonces a) n) }

/-- Transactions are promoted. -/
def promote (env : Env) (σ : Shape) (a : Address) (out : List Transaction)
    (queue : Set Transaction) : Shape :=
  { (σ.setPending a (σ.pending a ∪ { x | x ∈ out })).setQueue a queue with
    nonces := TxPool.nonceAfter σ.nonces a out
    dapp := out.foldl (TxPool.promoteDApp env) σ.dapp }

/-- The account is local from now on. -/
def whitelist (a : Address) : Shape :=
  { σ with terms := { σ.terms with locals := a :: σ.terms.locals } }

end Shape

/-- The moves; `new` are the transactions that may be accepted. -/
inductive Move (env : Env) (new : Transaction → Prop) (isLocal : Bool) (σ : Shape) : Shape → Prop
  | cut (a : Address) (n : ℕ) (queue : Set Transaction)
      (queued : ∀ x ∈ queue, x ∈ σ.queue a ∨ x ∈ σ.pending a ∧ n < x.nonce) :
      Move env new isLocal σ (σ.cut a n queue)
  | discard (a : Address) (queue : Set Transaction) (queued : ∀ x ∈ queue, x ∈ σ.queue a) :
      Move env new isLocal σ (σ.setQueue a queue)
  | promote (a : Address) (out : List Transaction) (queue : Set Transaction) (ready : σ.Ready a out)
      (queued : ∀ x ∈ queue, x ∈ σ.queue a ∧ σ.Executable a x ∧ x ∉ out)
      (apart : ∀ x ∈ σ.pending a, ∀ y ∈ σ.queue a, x.nonce ≠ y.nonce) :
      Move env new isLocal σ (σ.promote env a out queue)
  | accept (a : Address) (tx : Transaction) (sender : tx.sender = some a) (allowed : new tx)
      (executable : σ.Executable a tx) (free : ∀ x ∈ σ.pending a, x.nonce ≠ tx.nonce) :
      Move env new isLocal σ (σ.setQueue a (Shape.put (σ.queue a) tx))
  | replace (a : Address) (tx old : Transaction) (sender : tx.sender = some a) (allowed : new tx)
      (executable : σ.Executable a tx) (held : old ∈ σ.pending a) (same : old.nonce = tx.nonce) :
      Move env new isLocal σ (σ.setPending a (Shape.put (σ.pending a) tx))
  | whitelist (a : Address) (here : isLocal = true) :
      Move env new isLocal σ (σ.whitelist a)

variable {σ σ' : Shape}

theorem Move.mono {env : Env} {new new' : Transaction → Prop} {isLocal : Bool}
    (h : Move env new isLocal σ σ')
    (sub : ∀ tx, new tx → new' tx) : Move env new' isLocal σ σ' := by
  cases h with
  | cut a n queue queued => exact .cut a n queue queued
  | discard a queue queued => exact .discard a queue queued
  | promote a out queue ready queued apart => exact .promote a out queue ready queued apart
  | accept a tx sender allowed executable free =>
    exact .accept a tx sender (sub tx allowed) executable free
  | replace a tx old sender allowed executable held same =>
    exact .replace a tx old sender (sub tx allowed) executable held same
  | whitelist a here => exact .whitelist a here

theorem Move.head {env : Env} {isLocal : Bool} (h : Move env new isLocal σ σ') :
    σ'.terms.currentState = σ.terms.currentState ∧
      σ'.terms.currentMaxGas = σ.terms.currentMaxGas := by
  cases h <;> exact ⟨rfl, rfl⟩

theorem Move.terms {env : Env} {new : Transaction → Prop} (h : Move env new false σ σ') :
    σ'.terms = σ.terms := by
  cases h with
  | whitelist a here => exact nomatch here
  | _ => rfl

theorem terms_of_path {env : Env} (path : ReflTransGen (Move env new false) σ σ') :
    σ'.terms = σ.terms := by
  induction path with
  | refl => rfl
  | tail _ move ih => exact move.terms.trans ih

theorem executable_of_path {env : Env} {isLocal : Bool}
    (path : ReflTransGen (Move env new isLocal) σ σ') {a : Address} {tx : Transaction} :
    σ'.Executable a tx ↔ σ.Executable a tx := by
  induction path with
  | refl => exact Iff.rfl
  | tail _ move ih =>
    rw [← ih]
    unfold Shape.Executable Shape.stateNonce
    rw [move.head.1, move.head.2]

namespace TxPool

variable {env : Env} {new : Transaction → Prop} {isLocal : Bool} {p p' p'' : TxPool} {a : Address}
  {tx : Transaction} {txs loose : List Transaction}

/-- The terms of a pool. -/
def terms (p : TxPool) : Terms := ⟨p.currentState, p.currentMaxGas, p.gasPrice, p.locals⟩

/-- The shape of a pool. -/
def shape (p : TxPool) : Shape :=
  ⟨p.terms, txsOf p.pending, txsOf p.queue, p.pendingNonce, p.dappPending⟩

/-- A sound pool stays sound, by a path of moves. -/
def Leads (env : Env) (new : Transaction → Prop) (isLocal : Bool) (p p' : TxPool) : Prop :=
  p.Sound [] → p'.Sound [] ∧ ReflTransGen (Move env new isLocal) p.shape p'.shape

theorem Leads.refl (p : TxPool) : Leads env new isLocal p p := fun h => ⟨h, .refl⟩

theorem Leads.trans (h : Leads env new isLocal p p') (h' : Leads env new isLocal p' p'') :
    Leads env new isLocal p p'' := fun sound =>
  have first := h sound
  have second := h' first.1
  ⟨second.1, first.2.trans second.2⟩

theorem Leads.mono {new' : Transaction → Prop} (h : Leads env new isLocal p p')
    (sub : ∀ tx, new tx → new' tx) : Leads env new' isLocal p p' := fun sound =>
  ⟨(h sound).1, (h sound).2.lift id fun _ _ move => move.mono sub⟩

theorem Leads.unseen (p : TxPool) (priced : TxPricedList) (beats : AList fun _ : Address => ℤ)
    (tick : ℕ) :
    Leads env new isLocal p { p with priced := priced, beats := beats, tick := tick } := fun sound =>
  ⟨sound.congr rfl rfl rfl, .refl⟩

theorem Leads.foldl {β : Type*} {f : TxPool → β → TxPool} (xs : List β)
    (h : ∀ p, ∀ x ∈ xs, Leads env new isLocal p (f p x)) (p : TxPool) :
    Leads env new isLocal p (xs.foldl f p) := by
  induction xs generalizing p with
  | nil => exact .refl p
  | cons x xs ih =>
    exact (h p x mem_cons_self).trans
      (ih (fun p y hy => h p y (mem_cons_of_mem x hy)) (f p x))

/-! ## Removing -/

theorem lowerNonce_eq (p : TxPool) (a : Address) (n : ℕ) : p.lowerNonce a n =
      { p with pendingNonce := update p.pendingNonce a (min (p.pendingNonce a) n) } := by
  unfold lowerNonce setNonce
  split_ifs with h
  · rw [min_eq_right h.le]
  · rw [min_eq_left (not_lt.1 h), update_eq_self]

theorem Sound.unpend {rest : TxList} {invalids : List Transaction}
    (h : Sound { p with pending := shelve p.pending a rest } invalids)
    (senders : ∀ x ∈ invalids, x.sender = some a) : ∃ beats queue, p.unpend env a tx invalids rest =
        { p with
          pending := shelve p.pending a rest
          beats := beats
          queue := queue
          pendingNonce := update p.pendingNonce a (min (p.pendingNonce a) tx.nonce) } ∧
      txsOf queue = update (txsOf p.queue) a (txsOf p.queue a ∪ { x | x ∈ invalids }) ∧
      Sound { p with pending := shelve p.pending a rest, queue := queue } [] := by
  obtain ⟨beats, hbeats⟩ : ∃ beats,
      (if rest.len = 0 then { p with pending := p.pending.erase a, beats := p.beats.erase a }
        else p.setPending a rest) =
      { p with pending := shelve p.pending a rest, beats := beats } := by
    unfold shelve setPending
    split_ifs
    · exact ⟨_, rfl⟩
    · exact ⟨_, rfl⟩
  have perm := env.transactions_perm p.tick invalids
  have ready : Sound { p with pending := shelve p.pending a rest, beats := beats }
      (env.transactions p.tick invalids ++ []) := by
    rw [append_nil]
    exact (h.perm perm).congr rfl rfl rfl
  obtain ⟨queue, heq, hqueue, sound⟩ := @Sound.enqueueAll env _ _ _ _ ready
    fun x hx => senders x (perm.subset hx)
  refine ⟨beats, queue, ?_, ?_, sound.congr rfl rfl rfl⟩
  · unfold TxPool.unpend
    rw [hbeats, lowerNonce_eq, heq]
  · rw [hqueue]
    congr 2
    ext x
    exact perm.mem_iff

/-- What is left of a sound pool after a transaction is gone. -/
structure Gone (env : Env) (new : Transaction → Prop) (isLocal : Bool) (hash : Hash)
    (p p' : TxPool) : Prop where
  sound : p'.Sound []
  path : ReflTransGen (Move env new isLocal) p.shape p'.shape
  all : ∀ h, p'.all.lookup h = update (fun h => p.all.lookup h) hash none h

theorem gone_of_pending (h : p.Sound []) (htx : tx ∈ txsOf p.pending a) (priced : TxPricedList)
    (tick : ℕ) : ∃ invalids rest, (p.pending.lookup a).bind (·.remove tx) = some (invalids, rest) ∧
      Gone env new isLocal tx.hash p (unpend env
        { p with all := p.all.erase tx.hash, priced := priced, tick := tick } a tx invalids rest) := by
  obtain ⟨l, hl, htx⟩ := htx
  obtain ⟨invalids, rest, hremove, parts, strict, -⟩ := TxList.remove_of_mem htx
  obtain ⟨after, before⟩ := strict (h.strict a l hl)
  have held (x : Transaction) (hx : x ∈ invalids) : x ∈ txsOf p.pending a :=
    ⟨l, hl, parts.txs.mem_iff.2 (.inl (mem_cons_of_mem tx hx))⟩
  have taken : Sound { p with pending := shelve p.pending a rest } ((tx :: invalids) ++ []) :=
    h.takePending hl parts (txsOf_shelve p.pending a rest)
      (h.strict.shelve a (parts.strict.trans (h.strict a l hl)))
  rw [append_nil] at taken
  have dropped : Sound { p with
      all := p.all.erase tx.hash
      priced := priced
      tick := tick
      pending := shelve p.pending a rest } invalids :=
    (@Sound.forget env _ _ _ taken).congr rfl rfl rfl
  obtain ⟨beats, queue, heq, hqueue, sound⟩ := @Sound.unpend env
    { p with all := p.all.erase tx.hash, priced := priced, tick := tick } a tx rest invalids
    dropped fun x hx => h.indexed.sender (q := .pending) (held x hx)
  have kept : { x | x ∈ rest.txs } = { x | x ∈ txsOf p.pending a ∧ x.nonce < tx.nonce } := by
    ext x
    rw [Set.mem_ofPred_eq, Set.mem_ofPred_eq, txsOf_of_lookup hl, Set.mem_ofPred_eq,
      parts.txs.mem_iff]
    constructor
    · exact fun hx => ⟨.inr hx, before x hx⟩
    · rintro ⟨hx | hx, hlt⟩
      · rcases mem_cons.1 hx with rfl | hx
        · exact absurd hlt (lt_irrefl _)
        · exact absurd hlt (after x hx).not_gt
      · exact hx
  refine ⟨invalids, rest, by rw [hl]; exact hremove, ?_⟩
  rw [heq]
  refine ⟨sound.congr rfl rfl rfl, .single ?_, lookup_erase p.all tx.hash⟩
  unfold shape
  rw [txsOf_shelve, kept, hqueue]
  refine Move.cut (σ := p.shape) a tx.nonce (txsOf p.queue a ∪ { x | x ∈ invalids }) fun x hx => ?_
  rcases hx with hx | hx
  · exact .inl hx
  · exact .inr ⟨held x hx, after x hx⟩

theorem gone_of_queue (h : p.Sound []) (htx : tx ∈ txsOf p.queue a) (priced : TxPricedList) (tick : ℕ) :
    (p.pending.lookup a).bind (·.remove tx) = none ∧ Gone env new isLocal tx.hash p (unqueue
        { p with all := p.all.erase tx.hash, priced := priced, tick := tick } a tx) := by
  have hin := htx
  obtain ⟨l, hl, htx⟩ := htx
  obtain ⟨invalids, rest, hremove, parts, -, lax⟩ := TxList.remove_of_mem htx
  obtain rfl := lax (h.lax a l hl)
  have taken : Sound { p with queue := shelve p.queue a rest } ([tx] ++ []) :=
    h.takeQueue hl parts (txsOf_shelve p.queue a rest)
      (h.lax.shelve a (parts.strict.trans (h.lax a l hl)))
  have unqueued : unqueue { p with all := p.all.erase tx.hash, priced := priced, tick := tick } a tx =
      { p with
        all := p.all.erase tx.hash
        priced := priced
        tick := tick
        queue := shelve p.queue a rest } := by
    unfold unqueue
    rw [hl]
    dsimp only
    rw [hremove]
    unfold shelve TxPool.setQueue
    dsimp only [map_some, getD_some]
    split_ifs <;> rfl
  constructor
  · cases hpending : p.pending.lookup a with
    | none => rfl
    | some l' =>
      exact TxList.remove_of_free fun y hy => h.apart ⟨l', hpending, hy⟩ hin
  · rw [unqueued]
    refine ⟨(@Sound.forget env _ _ _ taken).congr rfl rfl rfl, .single ?_,
      lookup_erase p.all tx.hash⟩
    unfold shape
    rw [txsOf_shelve]
    exact Move.discard (σ := p.shape) a { x | x ∈ rest.txs } fun x hx =>
      ⟨l, hl, parts.txs.mem_iff.2 (.inr hx)⟩

theorem gone_removeTx (h : p.Sound []) (hash : Hash) (outofbound : Bool) :
    Gone env new isLocal hash p (p.removeTx env hash outofbound) := by
  unfold TxPool.removeTx
  cases hknown : p.all.lookup hash with
  | none =>
    refine ⟨h, .refl, fun h' => ?_⟩
    by_cases hh : h' = hash
    · rw [hh, hknown, update_self]
    · rw [update_of_ne hh]
  | some tx =>
    obtain ⟨rfl, held⟩ := (h.indexed.mem_all hash tx).1 hknown
    obtain ⟨q, a, hin⟩ := held.resolve_right nofun
    obtain ⟨priced, tick, hp⟩ : ∃ priced tick,
        (if outofbound then priceRemoved env { p with all := p.all.erase tx.hash }
          else { p with all := p.all.erase tx.hash }) =
        { p with all := p.all.erase tx.hash, priced := priced, tick := tick } := by
      split_ifs
      · exact ⟨_, _, rfl⟩
      · exact ⟨_, _, rfl⟩
    dsimp only
    rw [hp, h.indexed.sender hin, getD_some]
    cases q with
    | pending =>
      obtain ⟨invalids, rest, found, gone⟩ := gone_of_pending h hin priced tick
      rw [found]
      exact gone
    | queue =>
      obtain ⟨missing, gone⟩ := gone_of_queue h hin priced tick
      rw [missing]
      exact gone

theorem leads_removeTx (p : TxPool) (hash : Hash) (outofbound : Bool) :
    Leads env new isLocal p (p.removeTx env hash outofbound) := fun h =>
  have gone := gone_removeTx h hash outofbound
  ⟨gone.sound, gone.path⟩

theorem leads_removeAll (p : TxPool) (txs : List Transaction) (outofbound : Bool) :
    Leads env new isLocal p (p.removeAll env txs outofbound) :=
  Leads.foldl txs (fun p tx _ => leads_removeTx p tx.hash outofbound) p

theorem lookup_removeAll (h : p.Sound []) (txs : List Transaction) (outofbound : Bool) (k : Hash) :
    (p.removeAll env txs outofbound).all.lookup k =
      if k ∈ txs.map (·.hash) then none else p.all.lookup k := by
  induction txs generalizing p with
  | nil => rfl
  | cons tx txs ih =>
    have gone : Gone env (fun _ => False) false tx.hash p (p.removeTx env tx.hash outofbound) :=
      gone_removeTx h tx.hash outofbound
    refine (ih gone.sound).trans ?_
    rw [gone.all, map_cons]
    by_cases hk : k = tx.hash
    · rw [hk, update_self, if_pos mem_cons_self, ite_self]
    · simp only [update_of_ne hk, mem_cons, hk, false_or]

theorem cap_last (l : TxList) : (l.cap (l.len - 1)).1 = [] ∨ ∃ tx, (l.cap (l.len - 1)).1 = [tx] := by
  have few : (l.cap (l.len - 1)).1.length ≤ 1 := by
    show (l.txs.items.drop (l.len - 1)).reverse.length ≤ 1
    rw [length_reverse, length_drop]
    show l.len - (l.len - 1) ≤ 1
    omega
  match h : (l.cap (l.len - 1)).1 with
  | [] => exact .inl rfl
  | [tx] => exact .inr ⟨tx, rfl⟩
  | _ :: _ :: _ =>
    rw [h, length_cons, length_cons] at few
    omega

theorem leads_dropLast (p : TxPool) (a : Address) : Leads env new isLocal p (p.dropLast env a) := by
  intro h
  unfold dropLast
  cases hl : p.pending.lookup a with
  | none => exact ⟨h, .refl⟩
  | some l =>
    have parts := TxList.parts_cap l (l.len - 1)
    have lower {x y : Transaction} (hx : x ∈ (l.cap (l.len - 1)).2.txs)
        (hy : y ∈ (l.cap (l.len - 1)).1) : x.nonce < y.nonce :=
      SortedMap.key_lt_of_mem_cap (m := l.txs) hx hy
    have taken : (p.setPending a (l.cap (l.len - 1)).2).Sound ((l.cap (l.len - 1)).1 ++ []) :=
      h.takePending hl parts (txsOf_insert _ _ _)
        (h.strict.insert a (parts.strict.trans (h.strict a l hl)))
    have content : txsOf (p.setPending a (l.cap (l.len - 1)).2).pending =
        update (txsOf p.pending) a { x | x ∈ (l.cap (l.len - 1)).2.txs } :=
      txsOf_insert _ _ _
    have whole : txsOf p.pending a = { x | x ∈ l.txs } := txsOf_of_lookup hl
    dsimp only
    generalize (l.cap (l.len - 1)).2 = rest at *
    rcases cap_last l with none_out | ⟨tx, one_out⟩
    · rw [none_out] at taken parts ⊢
      refine ⟨taken, ?_⟩
      have same : { x | x ∈ rest.txs } = txsOf p.pending a := by
        rw [whole]
        ext x
        exact (parts.txs.mem_iff.trans (or_iff_right nofun)).symm
      have still : (p.setPending a rest).shape = p.shape := by
        show Shape.mk p.terms (txsOf (p.setPending a rest).pending) _ _ _ = _
        rw [content, same, update_eq_self]
        rfl
      rw [foldl_nil, still]
    · rw [one_out] at taken parts lower ⊢
      rw [foldl_cons, foldl_nil, lowerNonce_eq]
      refine ⟨(@Sound.forget env _ _ _ taken).congr rfl rfl rfl, .single ?_⟩
      have kept : { x | x ∈ rest.txs } = { x | x ∈ txsOf p.pending a ∧ x.nonce < tx.nonce } := by
        rw [whole]
        ext x
        rw [Set.mem_ofPred_eq, Set.mem_ofPred_eq, Set.mem_ofPred_eq, parts.txs.mem_iff,
          mem_singleton]
        constructor
        · exact fun hx => ⟨.inr hx, lower hx (mem_singleton_self tx)⟩
        · rintro ⟨rfl | hx, hlt⟩
          · exact absurd hlt (lt_irrefl _)
          · exact hx
      have cut : Move env new isLocal p.shape (p.shape.cut a tx.nonce (txsOf p.queue a)) :=
        .cut a tx.nonce _ fun x hx => .inl hx
      unfold Shape.cut Shape.setQueue Shape.setPending at cut
      rw [show p.shape.queue = txsOf p.queue from rfl, update_eq_self,
        show p.shape.pending = txsOf p.pending from rfl, ← kept, ← content] at cut
      exact cut

/-! ## Promoting -/

theorem Sound.trimQueue (h : p.Sound []) {l rest : TxList} {out : List Transaction}
    (hl : p.queue.lookup a = some l) (parts : l.Parts out rest) : ∃ all priced tick,
      (p.setQueue a rest).forgetAll env out =
        { p with queue := p.queue.insert a rest, all := all, priced := priced, tick := tick } ∧
      Sound { p with queue := p.queue.insert a rest, all := all, priced := priced, tick := tick }
        [] := by
  have taken : (p.setQueue a rest).Sound (out ++ []) :=
    h.takeQueue hl parts (txsOf_insert _ _ _)
      (h.lax.insert a (parts.strict.trans (h.lax a l hl)))
  have sound := @Sound.forgetAll env _ _ _ taken
  obtain ⟨all, priced, tick, heq⟩ := forgetAll_eq env (p.setQueue a rest) out
  rw [heq] at sound
  exact ⟨all, priced, tick, heq, sound⟩

theorem sweepQueue_spec (h : p.Sound []) {l : TxList} (hl : p.queue.lookup a = some l) :
    ∃ all priced tick rest, p.sweepQueue env a l =
        ({ p with queue := p.queue.insert a rest, all := all, priced := priced, tick := tick }, rest) ∧
      Sound { p with queue := p.queue.insert a rest, all := all, priced := priced, tick := tick } [] ∧
      ∀ x, x ∈ rest.txs ↔ x ∈ l.txs ∧ p.shape.Executable a x := by
  have parts₁ := TxList.parts_split l fun tx => tx.nonce < p.stateNonce a
  have kept₁ (x : Transaction) := @TxList.mem_forward l (p.stateNonce a) x
  have lax₁ := parts₁.strict.trans (h.lax a l hl)
  obtain ⟨all₁, priced₁, tick₁, heq₁, sound₁⟩ := @Sound.trimQueue env _ _ h _ _ _ hl parts₁
  unfold sweepQueue
  dsimp only [TxList.forward] at kept₁ ⊢
  rw [heq₁]
  generalize (l.split fun tx => tx.nonce < p.stateNonce a).2 = l₁ at *
  obtain ⟨none_out, kept₂⟩ := @TxList.filter_lax l₁ lax₁ (p.currentState.getBalance a) p.currentMaxGas
  have parts₂ := TxList.parts_filter l₁ (p.currentState.getBalance a) p.currentMaxGas
  rw [none_out, append_nil] at parts₂
  obtain ⟨all₂, priced₂, tick₂, heq₂, sound₂⟩ := @Sound.trimQueue env _ _ sound₁ _ _ _
    (AList.lookup_insert p.queue) (parts₂.perm (env.transactions_perm tick₁ _))
  rw [AList.insert_insert] at heq₂ sound₂
  refine ⟨all₂, priced₂, tick₂, _, ?_, sound₂, fun x => ?_⟩
  · rw [heq₂]
  · rw [kept₂, kept₁, and_assoc]
    rfl

theorem capQueue_spec (h : p.Sound []) {l : TxList} (hl : p.queue.lookup a = some l) :
    ∃ all priced tick queue content,
      p.capQueue env a l = { p with queue := queue, all := all, priced := priced, tick := tick } ∧
      Sound { p with queue := queue, all := all, priced := priced, tick := tick } [] ∧
      txsOf queue = update (txsOf p.queue) a content ∧ ∀ x ∈ content, x ∈ l.txs := by
  obtain ⟨capped, rest, hcap, parts⟩ : ∃ capped rest,
      (if a ∈ p.locals then ([], l) else l.cap env.config.accountQueue.toNat) = (capped, rest) ∧
        l.Parts capped rest := by
    split_ifs
    · exact ⟨[], l, rfl, TxList.parts_nil l⟩
    · exact ⟨_, _, rfl, TxList.parts_cap l _⟩
  obtain ⟨all, priced, tick, heq, sound⟩ := @Sound.trimQueue env _ _ h _ _ _ hl parts
  have content : txsOf (p.queue.insert a rest) =
      update (txsOf p.queue) a { x | x ∈ rest.txs } := txsOf_insert _ _ _
  have sub (x : Transaction) (hx : x ∈ { x | x ∈ rest.txs }) : x ∈ l.txs :=
    parts.txs.mem_iff.2 (.inr hx)
  unfold capQueue
  rw [hcap]
  dsimp only
  rw [heq]
  split_ifs with hlen
  · -- The empty list is deleted.
    have erased := txsOf_insert_erase hlen p.queue a
    refine ⟨all, priced, tick, _, _, rfl, ?_, erased, sub⟩
    refine sound.takeQueue (AList.lookup_insert p.queue) (TxList.parts_nil rest) ?_ (sound.lax.erase a)
    rw [erased, content, update_idem]
  · exact ⟨all, priced, tick, _, _, rfl, sound, content, sub⟩

theorem promoteAccount_spec (h : p.Sound []) (a : Address) :
    (p.promoteAccount env a).Sound [] ∧ ∃ out queue, p.shape.Ready a out ∧
      (∀ x ∈ queue, x ∈ txsOf p.queue a ∧ p.shape.Executable a x ∧ x ∉ out) ∧
      (p.promoteAccount env a).shape = p.shape.promote env a out queue := by
  unfold promoteAccount
  cases hl : p.queue.lookup a with
  | none =>
    have none_in := txsOf_of_lookup_none hl
    refine ⟨h, [], ∅, ⟨fun x hx => absurd hx not_mem_nil, fun _ x hx => ?_,
      fun hne => absurd rfl hne⟩, fun x hx => absurd hx (Set.notMem_empty x), ?_⟩
    · rw [show p.shape.queue a = ∅ from none_in] at hx
      exact nomatch hx
    · have pending : update p.shape.pending a (p.shape.pending a ∪ { x | x ∈ [] }) =
          p.shape.pending := by simp
      have queue : update p.shape.queue a ∅ = p.shape.queue := by
        rw [← none_in]
        exact update_eq_self a _
      unfold Shape.promote Shape.setPending Shape.setQueue
      rw [pending, queue]
      rfl
  | some l =>
    obtain ⟨all₁, priced₁, tick₁, l₁, heq₁, sound₁, kept₁⟩ := @sweepQueue_spec env _ _ h _ hl
    dsimp only
    rw [heq₁]
    have spec : SortedMap.Ready l₁.txs (p.pendingNonce a) (l₁.ready (p.pendingNonce a)).1
      (l₁.ready (p.pendingNonce a)).2.txs := SortedMap.ready_spec l₁.txs (p.pendingNonce a)
    have parts := TxList.parts_ready l₁ (p.pendingNonce a)
    obtain ⟨out, l₂, hready⟩ : ∃ out l₂, l₁.ready (p.pendingNonce a) = (out, l₂) := ⟨_, _, rfl⟩
    rw [hready] at spec parts ⊢
    have hl₁ : (p.queue.insert a l₁).lookup a = some l₁ := AList.lookup_insert p.queue
    have taken := sound₁.takeQueue hl₁ parts (txsOf_insert _ _ _)
      (sound₁.lax.insert a (parts.strict.trans (sound₁.lax a l₁ hl₁)))
    have mem {x : Transaction} (hx : x ∈ txsOf p.queue a) : x ∈ l.txs := by
      rwa [txsOf_of_lookup hl] at hx
    have queued (x : Transaction) (hx : x ∈ out) : x ∈ txsOf p.queue a ∧ p.shape.Executable a x := by
      obtain ⟨hx, executable⟩ := (kept₁ x).1 ((spec.mem x).2 (.inl hx))
      exact ⟨⟨l, hl, hx⟩, executable⟩
    obtain ⟨pending₂, beats₂, tick₂, heq₂, hpending₂, sound₂⟩ := @Sound.promoteAll env _ _ _ _ taken
      fun x hx => h.indexed.sender (q := .queue) (queued x hx).1
    dsimp only [TxPool.setQueue] at heq₂ sound₂ ⊢
    rw [heq₂]
    obtain ⟨all₃, priced₃, tick₃, queue₃, content, heq₃, sound₃, hqueue₃, sub⟩ :=
      @capQueue_spec env
        { p with
          queue := (p.queue.insert a l₁).insert a l₂
          all := all₁
          priced := priced₁
          pending := pending₂
          beats := beats₂
          tick := tick₂
          dappPending := out.foldl (promoteDApp env) p.dappPending
          pendingNonce := nonceAfter p.pendingNonce a out } a
        (sound₂.congr rfl rfl rfl) l₂ (AList.lookup_insert _)
    rw [heq₃]
    refine ⟨sound₃, out, content, ⟨queued, fun hnil x hx executable => ?_, fun hne => ?_⟩,
      fun x hx => ?_, ?_⟩
    · exact spec.above hnil x ((kept₁ x).2 ⟨mem hx, executable⟩)
    · obtain ⟨first, keys, start, -, after⟩ := spec.run hne
      refine ⟨first, keys, start, fun x hx executable => ?_⟩
      exact ((spec.mem x).1 ((kept₁ x).2 ⟨mem hx, executable⟩)).imp_right (after x)
    · have hx := sub x hx
      obtain ⟨hin, executable⟩ := (kept₁ x).1 ((spec.mem x).2 (.inr hx))
      exact ⟨⟨l, hl, hin⟩, executable, fun hout => parts.txs.key_ne hout hx rfl⟩
    · unfold shape
      rw [hpending₂, hqueue₃, txsOf_insert, txsOf_insert, update_idem, update_idem]
      rfl

theorem leads_promoteAccount (p : TxPool) (a : Address) :
    Leads env new isLocal p (p.promoteAccount env a) := by
  intro h
  obtain ⟨sound, out, queue, ready, queued, heq⟩ := promoteAccount_spec h a
  refine ⟨sound, .single ?_⟩
  rw [heq]
  exact .promote a out queue ready queued fun x hx y hy => h.apart hx hy

/-! ## The limits -/

theorem leads_shrink (accounts : List Address) (watched : Address) (threshold fuel : ℕ) (p : TxPool)
    (pending : ℕ) :
    Leads env new isLocal p (shrink env accounts watched threshold fuel p pending).1 := by
  induction fuel generalizing p pending with
  | zero => exact .refl p
  | succ fuel ih =>
    unfold shrink
    split_ifs
    · exact (Leads.foldl accounts (fun p a _ => leads_dropLast p a) p).trans (ih _ _)
    · exact .refl p

theorem leads_equalize (spammers offenders : List Address) (p : TxPool) (pending : ℕ) :
    Leads env new isLocal p (equalize env spammers offenders p pending).1 := by
  induction spammers generalizing offenders p pending with
  | nil => exact .refl p
  | cons offender spammers ih =>
    unfold equalize
    split_ifs
    · exact .refl p
    · cases offenders.getLast? with
      | none => exact ih _ p pending
      | some last => exact (leads_shrink offenders last _ pending p pending).trans (ih _ _ _)

theorem leads_truncatePending (p : TxPool) : Leads env new isLocal p (p.truncatePending env) := by
  unfold truncatePending
  dsimp only
  split_ifs
  · exact .refl p
  · have first : Leads env new isLocal p
        (equalize env (p.spammers env) [] { p with tick := p.tick + 1 } (count p.pending)).1 :=
      (Leads.unseen p p.priced p.beats (p.tick + 1)).trans (leads_equalize _ _ _ _)
    obtain ⟨q, pending, offenders, hq⟩ : ∃ q pending offenders,
        equalize env (p.spammers env) [] { p with tick := p.tick + 1 } (count p.pending) =
          (q, pending, offenders) := ⟨_, _, _, rfl⟩
    rw [hq] at first ⊢
    cases offenders.getLast? with
    | none => exact first
    | some last => exact first.trans (leads_shrink offenders last _ pending q pending)

theorem leads_dropQueued (accounts : List Address) (drop : ℕ) (p : TxPool) :
    Leads env new isLocal p (dropQueued env accounts drop p) := by
  induction accounts generalizing drop p with
  | nil => exact .refl p
  | cons a accounts ih =>
    unfold dropQueued
    dsimp only
    split_ifs
    · exact .refl p
    · exact (leads_removeAll p _ true).trans (ih _ _)
    · exact leads_removeAll p _ true

theorem leads_truncateQueue (p : TxPool) : Leads env new isLocal p (p.truncateQueue env) := by
  unfold truncateQueue
  dsimp only
  split_ifs
  · exact .refl p
  · exact (Leads.unseen p p.priced p.beats (p.tick + 1)).trans (leads_dropQueued _ _ _)

theorem leads_truncate (p : TxPool) :
    Leads env new isLocal p ((p.truncatePending env).truncateQueue env) :=
  (leads_truncatePending p).trans (leads_truncateQueue _)

theorem leads_promoteExecutables (p : TxPool) (accounts : List Address) :
    Leads env new isLocal p (p.promoteExecutables env accounts) :=
  (Leads.foldl accounts (fun p a _ => leads_promoteAccount p a) p).trans (leads_truncate _)

theorem leads_promoteQueued (p : TxPool) : Leads env new isLocal p (p.promoteQueued env) :=
  (Leads.unseen p p.priced p.beats (p.tick + 1)).trans (leads_promoteExecutables _ _)

theorem leads_evict (p : TxPool) : Leads env new isLocal p (p.evict env) := by
  refine (Leads.unseen p p.priced p.beats (p.tick + 1)).trans
    (Leads.foldl _ (fun p a _ => ?_) _)
  unfold evictAccount
  dsimp only
  split_ifs
  · exact .refl p
  · exact (Leads.unseen p p.priced p.beats (p.tick + 1)).trans (leads_removeAll _ _ true)
  · exact Leads.unseen p p.priced p.beats (p.tick + 1)

theorem leads_setGasPrice (p : TxPool) (price : ℤ) :
    Leads env new isLocal { p with gasPrice := price } (p.setGasPrice env price) :=
  (Leads.unseen { p with gasPrice := price } _ p.beats p.tick).trans (leads_removeAll _ _ false)

end TxPool

end JuChain.Pool
