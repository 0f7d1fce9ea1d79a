import JuChain.Pool.Moves

/-!
# Adding transactions

A new and valid transaction goes to the queue of its account, or takes the place of the one with its
nonce (`Rival`) if it pays enough more.  In a full pool the cheapest (`victims`) are discarded
first.
-/

namespace JuChain.Pool

open State Relation List Option

namespace TxPool

variable {env : Env} {new : Transaction → Prop} {isLocal : Bool} {p p' : TxPool} {a : Address}
  {tx : Transaction} {txs loose : List Transaction}

/-! ## One transaction in a list -/

/-- A sound pool of the given shape, with at most one transaction more. -/
structure Entered (p p' : TxPool) (σ : Shape) : Prop where
  sound : p'.Sound []
  shape : p'.shape = σ
  size : p'.all.entries.length ≤ p.all.entries.length + 1

theorem length_erase_le (all : TxIndex) (h : Hash) :
    (all.erase h).entries.length ≤ all.entries.length :=
  (kerase_sublist h all.entries).length_le

theorem length_insert_le (all : TxIndex) (h : Hash) (tx : Transaction) :
    (all.insert h tx).entries.length ≤ all.entries.length + 1 := by
  rw [AList.entries_insert, length_cons]
  have := (kerase_sublist h all.entries).length_le
  omega

theorem setOf_put_listOr (lists : Lists) (strict : Bool) (a : Address) (tx : Transaction) :
    { y | y ∈ ((listOr lists strict a).put tx).txs } = Shape.put (txsOf lists a) tx := by
  ext y
  refine TxList.mem_put.trans (or_congr_right (and_congr_left fun _ => ?_))
  exact mem_listOr

theorem txsOf_insert_put (lists : Lists) (strict : Bool) (a : Address) (tx : Transaction) :
    txsOf (lists.insert a ((listOr lists strict a).put tx)) =
      Function.update (txsOf lists) a (Shape.put (txsOf lists a) tx) := by
  rw [txsOf_insert, setOf_put_listOr]

theorem put_of_free {txs : Set Transaction} (free : ∀ y ∈ txs, y.nonce ≠ tx.nonce) :
    Shape.put txs tx = Insert.insert tx txs := by
  ext y
  exact or_congr_right ⟨And.left, fun hy => ⟨hy, free y hy⟩⟩

theorem rememberNew_of_unknown (unknown : p.all.lookup tx.hash = none) :
    p.rememberNew tx = p.remember tx := by
  rw [rememberNew, unknown]
  rfl

section New

variable (h : p.Sound []) (sender : tx.sender = some a) (unknown : p.all.lookup tx.hash = none)
variable {old : Transaction}

include h sender unknown

theorem enqueueTx_of_free (free : ∀ x ∈ txsOf p.pending a, x.nonce ≠ tx.nonce)
    (free' : ∀ x ∈ txsOf p.queue a, x.nonce ≠ tx.nonce) :
    ∃ p', p.enqueueTx env tx = (p', .ok false) ∧
      Entered p p' (p.shape.setQueue a (Shape.put (txsOf p.queue a) tx)) := by
  have added : (listOr p.queue false (tx.sender.getD 0)).add tx env.config.priceBump =
      some ((listOr p.queue false a).put tx, none) := by
    rw [sender]
    exact TxList.add_of_free (fun y hy => free' y (mem_listOr.1 hy)) _
  have enqueued := enqueueTx_of_add added
  have remembered :=
    rememberNew_of_unknown (p := p.setQueue a ((listOr p.queue false a).put tx)) unknown
  rw [sender, getD_some] at enqueued
  refine ⟨_, enqueued.trans (congrArg (fun q => (q, Except.ok false)) remembered),
    ⟨?_, h.strict, h.lax.insert a (strict_listOr h.lax a)⟩, ?_, length_insert_le p.all tx.hash tx⟩
  · have free_held (x : Transaction) (hx : p.view.Held [] x) (hsender : x.sender = tx.sender) :
        x.nonce ≠ tx.nonce := by
      obtain ⟨q, b, hx⟩ := hx.resolve_right not_mem_nil
      obtain rfl : b = a :=
        some.inj ((h.indexed.sender hx).symm.trans (hsender.trans sender))
      cases q with
      | pending => exact free x hx
      | queue => exact free' x hx
    have put := (h.indexed.accept sender unknown free_held).put (q := .queue) sender
    have view : (remember (p.setQueue a ((listOr p.queue false a).put tx)) tx).view =
        (p.view.record tx).set .queue a (Insert.insert tx (txsOf p.queue a)) := by
      rw [view_remember, ← put_of_free free', show (p.setQueue a _).view =
        _ from view_queue p (txsOf_insert_put ..)]
      rfl
    rw [view]
    exact put
  · show Shape.mk p.terms (txsOf p.pending) (txsOf (p.queue.insert a _)) _ _ = _
    rw [txsOf_insert_put]
    rfl

omit h sender unknown in
theorem lookup_erase_of_none {all : TxIndex} {h : Hash} (unknown : all.lookup h = none) (h' : Hash) :
    (all.erase h').lookup h = none := by
  rw [lookup_erase]
  by_cases hh : h = h'
  · rw [hh, Function.update_self]
  · rw [Function.update_of_ne hh, unknown]

omit h sender unknown in
theorem length_swap_le (all : TxIndex) (h h' : Hash) (tx : Transaction) :
    ((all.erase h').insert h tx).entries.length ≤ all.entries.length + 1 :=
  (length_insert_le (all.erase h') h tx).trans (Nat.succ_le_succ (length_erase_le all h'))

theorem enqueueTx_of_swap (held : old ∈ txsOf p.queue a)
    (same : old.nonce = tx.nonce) (pays : outbids env.config.priceBump old tx = false) :
    ∃ p', p.enqueueTx env tx = (p', .ok true) ∧
      Entered p p' (p.shape.setQueue a (Shape.put (txsOf p.queue a) tx)) := by
  have added : (listOr p.queue false (tx.sender.getD 0)).add tx env.config.priceBump =
      some ((listOr p.queue false a).put tx, some old) := by
    rw [sender, getD_some, TxList.add_of_held (mem_listOr.2 held) same, pays]
    rfl
  have enqueued := enqueueTx_of_add added
  have remembered := rememberNew_of_unknown
    (p := forget env (p.setQueue a ((listOr p.queue false a).put tx)) old.hash)
      (lookup_erase_of_none unknown _)
  rw [sender, getD_some] at enqueued
  refine ⟨_, enqueued.trans (congrArg (fun q => (q, Except.ok true)) remembered),
    ⟨?_, h.strict, h.lax.insert a (strict_listOr h.lax a)⟩, ?_,
      length_swap_le p.all tx.hash old.hash tx⟩
  · have view : (remember (TxPool.forget env
        (p.setQueue a ((listOr p.queue false a).put tx)) old.hash) tx).view =
        ((p.view.erase old.hash).record tx).set .queue a (Shape.put (txsOf p.queue a) tx) := by
      rw [view_remember, view_forget, show (p.setQueue a _).view =
        _ from view_queue p (txsOf_insert_put ..)]
      rfl
    rw [view]
    exact h.indexed.swap (q := .queue) sender unknown held same
  · show Shape.mk p.terms (txsOf p.pending) (txsOf (p.queue.insert a _)) _ _ = _
    rw [txsOf_insert_put]
    rfl

theorem replacePending_of_swap {l : TxList} (hl : p.pending.lookup a = some l) (held : old ∈ l.txs)
    (same : old.nonce = tx.nonce) (pays : outbids env.config.priceBump old tx = false) :
    ∃ p', p.replacePending env l tx = (p', .ok true) ∧
      Entered p p' (p.shape.setPending a (Shape.put (txsOf p.pending a) tx)) := by
  have content := txsOf_insert_put p.pending true a tx
  rw [listOr, hl, getD_some] at content
  refine ⟨(TxPool.forget env (p.setPending a (l.put tx)) old.hash).remember tx, ?_,
    ⟨?_, h.strict.insert a (h.strict a l hl), h.lax⟩, ?_, length_swap_le p.all tx.hash old.hash tx⟩
  · unfold replacePending
    rw [TxList.add_of_held held same, pays, sender]
    rfl
  · have view : (remember (TxPool.forget env (p.setPending a (l.put tx)) old.hash) tx).view =
        ((p.view.erase old.hash).record tx).set .pending a (Shape.put (txsOf p.pending a) tx) := by
      rw [view_remember, view_forget, show (p.setPending a _).view = _ from view_pending p content]
      rfl
    rw [view]
    exact h.indexed.swap (q := .pending) sender unknown ⟨l, hl, held⟩ same
  · show Shape.mk p.terms (txsOf (p.pending.insert a _)) (txsOf p.queue) _ _ = _
    rw [content]
    rfl

/-! ## `insert` and `add` -/

/-- A transaction that the pool holds under the sender and nonce of a new one. -/
def Rival (p : TxPool) (a : Address) (tx old : Transaction) : Prop :=
  (old ∈ txsOf p.pending a ∨ old ∈ txsOf p.queue a) ∧ old.nonce = tx.nonce

/-- The outcomes of `insert`. -/
inductive Inserted (env : Env) (isLocal : Bool) (p : TxPool) (a : Address) (tx : Transaction) : Prop
  | refused {old : Transaction} (rival : p.Rival a tx old)
      (heq : p.insert env tx isLocal = (p, .error .replaceUnderpriced))
  | replaced {old : Transaction} {p' : TxPool} (held : old ∈ txsOf p.pending a)
    (same : old.nonce = tx.nonce)
      (heq : p.insert env tx isLocal = (p', .ok true))
      (entered : Entered p p' (p.shape.setPending a (Shape.put (txsOf p.pending a) tx)))
  | queued {p' : TxPool} {replaced : Bool} (free : ∀ x ∈ txsOf p.pending a, x.nonce ≠ tx.nonce)
      (heq : p.insert env tx isLocal =
        (if isLocal then { p' with locals := a :: p'.locals } else p', .ok replaced))
      (entered : Entered p p' (p.shape.setQueue a (Shape.put (txsOf p.queue a) tx)))
      (old : replaced = true → ∃ old ∈ txsOf p.queue a, old.nonce = tx.nonce)

omit h sender unknown in
theorem filter_overlaps_of_held (held : old ∈ txsOf p.pending a) (same : old.nonce = tx.nonce) :
    ∃ l, p.pending.lookup a = some l ∧ old ∈ l.txs ∧
      (p.pending.lookup a).filter (·.overlaps tx) = some l := by
  obtain ⟨l, hl, hold⟩ := held
  refine ⟨l, hl, hold, ?_⟩
  rw [hl]
  exact if_pos (TxList.overlaps_iff.2 ⟨old, hold, same⟩)

omit h sender unknown in
theorem filter_overlaps_of_free (free : ∀ x ∈ txsOf p.pending a, x.nonce ≠ tx.nonce) :
    (p.pending.lookup a).filter (·.overlaps tx) = none := by
  cases hl : p.pending.lookup a with
  | none => rfl
  | some l =>
    refine if_neg fun overlaps => ?_
    obtain ⟨y, hy, same⟩ := TxList.overlaps_iff.1 overlaps
    exact free y ⟨l, hl, hy⟩ same

omit unknown in
theorem insert_of_refused
    (rival : p.Rival a tx old) (refused : outbids env.config.priceBump old tx = true) :
    p.insert env tx isLocal = (p, .error .replaceUnderpriced) := by
  obtain ⟨held, same⟩ := rival
  unfold TxPool.insert
  dsimp only
  rw [sender, getD_some]
  rcases held with pending | queued
  · obtain ⟨l, -, hold, hfilter⟩ := filter_overlaps_of_held pending same
    rw [hfilter]
    dsimp only
    unfold replacePending
    rw [TxList.add_of_held hold same, refused]
    rfl
  · rw [filter_overlaps_of_free fun x hx => same ▸ h.apart hx queued]
    dsimp only
    rw [enqueueTx_of_reject]
    rw [sender, getD_some, TxList.add_of_held (mem_listOr.2 queued) same, refused]
    rfl

theorem insert_of_pending (held : old ∈ txsOf p.pending a) (same : old.nonce = tx.nonce)
    (pays : outbids env.config.priceBump old tx = false) : Inserted env isLocal p a tx := by
  obtain ⟨l, hl, hold, hfilter⟩ := filter_overlaps_of_held held same
  obtain ⟨p', heq, entered⟩ := replacePending_of_swap h sender unknown hl hold same pays
  refine .replaced held same ?_ entered
  unfold TxPool.insert
  dsimp only
  rw [sender, getD_some, hfilter]
  exact heq

theorem insert_of_queue (free : ∀ x ∈ txsOf p.pending a, x.nonce ≠ tx.nonce)
    (pays : ∀ old ∈ txsOf p.queue a, old.nonce = tx.nonce →
      outbids env.config.priceBump old tx = false) : Inserted env isLocal p a tx := by
  have enqueued : ∃ p' replaced, p.enqueueTx env tx = (p', .ok replaced) ∧
      Entered p p' (p.shape.setQueue a (Shape.put (txsOf p.queue a) tx)) ∧
      (replaced = true → ∃ old ∈ txsOf p.queue a, old.nonce = tx.nonce) := by
    by_cases held : ∃ old ∈ txsOf p.queue a, old.nonce = tx.nonce
    · obtain ⟨old, hold, same⟩ := held
      obtain ⟨p', heq, entered⟩ := enqueueTx_of_swap h sender unknown hold same (pays old hold same)
      exact ⟨p', true, heq, entered, fun _ => ⟨old, hold, same⟩⟩
    · obtain ⟨p', heq, entered⟩ := enqueueTx_of_free h sender unknown free
        fun x hx same => held ⟨x, hx, same⟩
      exact ⟨p', false, heq, entered, nofun⟩
  obtain ⟨p', replaced, heq, entered, old⟩ := enqueued
  refine .queued free ?_ entered old
  unfold TxPool.insert
  dsimp only
  rw [sender, getD_some, filter_overlaps_of_free free]
  rw [heq]

theorem insert_cases : Inserted env isLocal p a tx := by
  by_cases refused : ∃ old, p.Rival a tx old ∧ outbids env.config.priceBump old tx = true
  · obtain ⟨old, rival, refused⟩ := refused
    exact .refused rival (insert_of_refused h sender rival refused)
  have pays (old : Transaction) (rival : p.Rival a tx old) :
      outbids env.config.priceBump old tx = false := by
    by_contra hout
    exact refused ⟨old, rival, Bool.not_eq_false _ ▸ hout⟩
  by_cases pending : ∃ old ∈ txsOf p.pending a, old.nonce = tx.nonce
  · obtain ⟨old, held, same⟩ := pending
    exact insert_of_pending h sender unknown held same (pays old ⟨.inl held, same⟩)
  · exact insert_of_queue h sender unknown (fun x hx same => pending ⟨x, hx, same⟩)
      fun old held same => pays old ⟨.inr held, same⟩

end New

theorem executable_of_validateTx (h : p.validateTx tx isLocal = .ok ()) :
    ∃ a, tx.sender = some a ∧ p.shape.Executable a tx := by
  unfold validateTx at h
  split_ifs at h with _ _ _ _ gas
  cases hsender : tx.sender with
  | none =>
    rw [hsender] at h
    exact nomatch h
  | some a =>
    rw [hsender] at h
    dsimp only at h
    split_ifs at h with _ nonce balance
    refine ⟨a, rfl, not_lt.1 nonce, ?_⟩
    unfold TxList.exceeds
    rw [decide_eq_false_iff_not, not_or]
    exact ⟨balance, gas⟩

theorem leads_insert (sender : tx.sender = some a) (unknown : p.all.lookup tx.hash = none)
    (executable : p.shape.Executable a tx) (allowed : new tx) :
    Leads env new isLocal p (p.insert env tx isLocal).1 := by
  intro h
  cases insert_cases h sender unknown with
  | refused _ heq =>
    rw [heq]
    exact ⟨h, .refl⟩
  | replaced held same heq entered =>
    rw [heq]
    refine ⟨entered.sound, .single ?_⟩
    rw [entered.shape]
    exact .replace a tx _ sender allowed executable held same
  | @queued p' _ free heq entered =>
    have accept : Move env new isLocal p.shape p'.shape := by
      rw [entered.shape]
      exact .accept a tx sender allowed executable free
    rw [heq]
    split_ifs with here
    · exact ⟨entered.sound.congr rfl rfl rfl, .tail (.single accept) (.whitelist a here)⟩
    · exact ⟨entered.sound, .single accept⟩

theorem leads_makeRoom (p : TxPool) : Leads env new isLocal p (p.makeRoom env) :=
  (Leads.unseen p _ p.beats p.tick).trans (leads_removeAll _ _ false)

theorem underpriced_eq (p : TxPool) (tx : Transaction) (isLocal : Bool) :
    ∃ priced, (p.underpriced tx isLocal).1 = { p with priced := priced } := by
  unfold underpriced
  split_ifs
  · exact ⟨p.priced, rfl⟩
  · exact ⟨_, rfl⟩

/-- The transactions that are discarded for a new one. -/
def victims (env : Env) (p : TxPool) : List Transaction :=
  (p.priced.discard p.all p.isLocalTx (p.surplus env)).2

theorem lookup_makeRoom (h : p.Sound []) (k : Hash) : (p.makeRoom env).all.lookup k =
      if k ∈ (victims env p).map (·.hash) then none else p.all.lookup k := by
  have sound : Sound { p with priced := (p.priced.discard p.all p.isLocalTx (p.surplus env)).1 } [] :=
    h.congr rfl rfl rfl
  exact lookup_removeAll sound (victims env p) false k

theorem leads_add (p : TxPool) (tx : Transaction) (isLocal : Bool) :
    Leads env (fun y => y = tx ∧ p.validateTx tx isLocal = .ok ()) isLocal p
      (p.add env tx isLocal).1 := by
  unfold add
  split_ifs with known full
  · exact .refl p
  · cases hvalid : p.validateTx tx isLocal with
    | error e => exact .refl p
    | ok u =>
      obtain ⟨a, sender, executable⟩ := executable_of_validateTx hvalid
      obtain ⟨priced, hunder⟩ := underpriced_eq p tx isLocal
      obtain ⟨q, under, hq⟩ : ∃ q under, p.underpriced tx isLocal = (q, under) := ⟨_, _, rfl⟩
      rw [hq] at hunder ⊢
      obtain rfl : q = { p with priced := priced } := hunder
      cases under with
      | true => exact Leads.unseen p priced p.beats p.tick
      | false =>
        intro h
        have unknown : p.all.lookup tx.hash = none := not_isSome_iff_eq_none.1 known
        have cleared : Leads env (fun y => y = tx ∧ (Except.ok () : Except AddError Unit) = .ok ())
            isLocal p (makeRoom env { p with priced := priced }) :=
          (Leads.unseen p priced p.beats p.tick).trans (leads_makeRoom _)
        have sound : Sound { p with priced := priced } [] := h.congr rfl rfl rfl
        have still_unknown : (makeRoom env { p with priced := priced }).all.lookup tx.hash = none := by
          rw [lookup_makeRoom sound, unknown, ite_self]
        exact cleared.trans (leads_insert sender still_unknown
          ((executable_of_path (cleared h).2).2 executable) ⟨rfl, rfl⟩) h
  · cases hvalid : p.validateTx tx isLocal with
    | error e => exact .refl p
    | ok u =>
      obtain ⟨a, sender, executable⟩ := executable_of_validateTx hvalid
      exact leads_insert sender (not_isSome_iff_eq_none.1 known) executable ⟨rfl, rfl⟩

/-! ## Batches -/

theorem validateTx_congr (h : p'.terms = p.terms) (tx : Transaction) (isLocal : Bool) :
    p'.validateTx tx isLocal = p.validateTx tx isLocal := by
  obtain ⟨state, gas, price, locals⟩ := Terms.mk.inj h
  unfold validateTx stateNonce
  rw [state, gas, price, locals]

/-- The addresses to promote after an `add`. -/
def dirtyAfter (dirty : List Address) (tx : Transaction) : Except AddError Bool → List Address
  | .ok false => dirty.insert (tx.sender.getD 0)
  | _ => dirty

theorem addEach_cons (tx : Transaction) (txs : List Transaction) (q : TxPool) (dirty : List Address) :
    addEach env isLocal (tx :: txs) q dirty =
      addEach env isLocal txs (q.add env tx isLocal).1
        (dirtyAfter dirty tx (q.add env tx isLocal).2) := by
  rw [addEach]
  obtain ⟨q', result, hadd⟩ : ∃ q' result, q.add env tx isLocal = (q', result) := ⟨_, _, rfl⟩
  rw [hadd]
  match result with
  | .ok false | .ok true | .error _ => rfl

theorem leads_addEach (txs : List Transaction) {q : TxPool} (hq : q.terms = p.terms)
    (dirty : List Address) : Leads env (fun y => y ∈ txs ∧ p.validateTx y false = .ok ()) false q
      (addEach env false txs q dirty).1 := by
  induction txs generalizing q dirty with
  | nil => exact .refl q
  | cons tx txs ih =>
    intro h
    have first : Leads env (fun y => y ∈ tx :: txs ∧ p.validateTx y false = .ok ()) false q
        (q.add env tx false).1 :=
      (leads_add q tx false).mono fun y hy => ⟨hy.1 ▸ mem_cons_self, by
        rw [hy.1, ← validateTx_congr hq]
        exact hy.2⟩
    have same : (q.add env tx false).1.terms = p.terms := (terms_of_path (first h).2).trans hq
    rw [addEach_cons]
    exact first.trans ((ih same _).mono fun y hy => ⟨mem_cons_of_mem tx hy.1, hy.2⟩) h

theorem leads_addEach_local (isLocal : Bool) (txs : List Transaction) (p : TxPool)
    (dirty : List Address) : Leads env (· ∈ txs) isLocal p (addEach env isLocal txs p dirty).1 := by
  induction txs generalizing p dirty with
  | nil => exact .refl p
  | cons tx txs ih =>
    have first : Leads env (· ∈ tx :: txs) isLocal p (p.add env tx isLocal).1 :=
      (leads_add p tx isLocal).mono fun y hy => hy.1 ▸ mem_cons_self
    rw [addEach_cons]
    exact first.trans ((ih _ _).mono fun y hy => mem_cons_of_mem tx hy)

theorem leads_addTx (p : TxPool) (tx : Transaction) (isLocal : Bool) :
    Leads env (· = tx) isLocal p (p.addTx env tx isLocal) := by
  have first : Leads env (· = tx) isLocal p (p.add env tx isLocal).1 :=
    (leads_add p tx isLocal).mono fun y hy => hy.1
  unfold addTx
  obtain ⟨p', result, hadd⟩ : ∃ p' result, p.add env tx isLocal = (p', result) := ⟨_, _, rfl⟩
  rw [hadd] at first ⊢
  match result with
  | .ok false => exact first.trans (leads_promoteExecutables p' _)
  | .ok true | .error _ => exact first

theorem leads_addTxsLocked (p : TxPool) (txs : List Transaction) (isLocal : Bool) :
    Leads env (· ∈ txs) isLocal p (p.addTxsLocked env txs isLocal) := by
  have first := @leads_addEach_local env isLocal txs p []
  unfold addTxsLocked
  obtain ⟨p', dirty, hadd⟩ : ∃ p' dirty, addEach env isLocal txs p [] = (p', dirty) := ⟨_, _, rfl⟩
  rw [hadd] at first ⊢
  dsimp only at first ⊢
  split_ifs
  · exact first
  · exact first.trans ((Leads.unseen p' p'.priced p'.beats (p'.tick + 1)).trans
      (leads_promoteExecutables _ _))

end TxPool

end JuChain.Pool
