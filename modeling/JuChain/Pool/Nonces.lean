import JuChain.Pool.Accounts

/-!
# The nonces of the pending transactions

`reset` looks for a gap only in front of the pending transactions.  So the pending nonces have no
gap in the runs whose resets bring back, of an account whose nonce falls, all of the nonces it has
lost or not the first one (`Recovers`).
-/

namespace JuChain.Pool

open State Relation List Function Option

/-! ## After a demotion -/

theorem exists_end {s m : ℕ} {K : ℕ → Prop} (low : ∀ n, K n → s ≤ n ∧ n < m)
    (closed : ∀ n, K n → ∀ j, s ≤ j → j ≤ n → K j) : ∃ k, ∀ n, K n ↔ s ≤ n ∧ n < k := by
  classical
  have missing : ∃ n, s ≤ n ∧ ¬K n :=
    ⟨max s m, le_max_left s m, fun h => (le_max_right s m).not_gt (low _ h).2⟩
  refine ⟨Nat.find missing, fun n => ⟨fun hn => ⟨(low n hn).1, ?_⟩, fun hn => ?_⟩⟩
  · obtain ⟨above, out⟩ := Nat.find_spec missing
    exact not_le.1 fun hle => out (closed n hn _ above hle)
  · by_contra out
    exact Nat.find_min missing hn.2 ⟨hn.1, out⟩

/-- The nonce has fallen below the pending transactions, which are those from `low` to `high`, and
the nonces in between are queued. -/
structure Covered (low high s : ℕ) (ok : Transaction → Prop) (c : Account) : Prop where
  fallen : s < low
  nonempty : low < high
  has : ∀ n, c.Has n ↔ low ≤ n ∧ n < high
  nonce : c.nonce = s
  queues : ∀ n, s ≤ n → n < low → c.Queues n
  executable : ∀ x ∈ c.queue, x.nonce < low → ok x

/-- An account whose lost nonces are all queued. -/
def Refilled (s : ℕ) (ok : Transaction → Prop) (c : Account) : Prop :=
  ∃ low high, Covered low high s ok c

/-- Aligned, or blocked. -/
def Fit (s : ℕ) (ok : Transaction → Prop) (c : Account) : Prop := Aligned s ok c ∨ Blocked s c

namespace Shape

variable {σ : Shape} {a : Address}

theorem executable_of_kept {x : Transaction} (hx : x ∈ σ.kept a) : σ.Executable a x :=
  hx.2.2.1 x hx.1 hx.2.1 le_rfl

theorem exists_end_kept (fit : σ.At Fit a) :
    ∃ k, ∀ n, (∃ x ∈ σ.kept a, x.nonce = n) ↔ σ.stateNonce a ≤ n ∧ n < k := by
  rcases fit with aligned | blocked
  · obtain ⟨m, hm⟩ := aligned.interval
    refine exists_end (m := m) ?_ ?_
    · rintro _ ⟨x, hx, rfl⟩
      exact ⟨hx.2.1, (hm _ hx.2.1).1 ⟨x, hx.1, rfl⟩⟩
    · rintro _ ⟨x, hx, rfl⟩ j hj hle
      obtain ⟨y, hy, rfl⟩ := (hm j hj).2 (hle.trans_lt ((hm _ hx.2.1).1 ⟨x, hx.1, rfl⟩))
      exact ⟨y, ⟨hy, hj, fun z hz old hz' => hx.2.2.1 z hz old (hz'.trans hle), hx.2.2.2⟩, rfl⟩
  · refine ⟨σ.stateNonce a, fun n => iff_of_false ?_ fun h => h.1.not_gt h.2⟩
    rintro ⟨x, ⟨-, -, -, first⟩, -⟩
    exact blocked.missing first

theorem nonce_le_of_kept_empty (fit : σ.At Fit a)
    (unique : ∀ x ∈ σ.pending a, ∀ y ∈ σ.pending a, x.nonce = y.nonce → x = y)
    (empty : σ.kept a = ∅) : σ.nonces a ≤ σ.stateNonce a := by
  rcases fit with aligned | blocked
  · refine not_lt.1 fun above => ?_
    obtain ⟨x, hx, first, executable⟩ := aligned.claimed _ le_rfl above
    have kept : x ∈ σ.kept a := by
      refine ⟨hx, first.ge, fun y hy old hle => ?_, x, hx, first⟩
      rw [unique y hy x hx (le_antisymm hle (first.trans_le old))]
      exact executable
    rw [empty] at kept
    exact kept
  · exact blocked.behind

theorem steady_kept (fit : σ.At Fit a)
    (unique : ∀ x ∈ σ.pending a, ∀ y ∈ σ.pending a, x.nonce = y.nonce → x = y) {nonce : ℕ}
    (none_left : σ.kept a = ∅ → nonce = σ.nonces a)
    (some_left : ∀ x ∈ σ.kept a, (∀ y ∈ σ.kept a, y.nonce ≤ x.nonce) → nonce = x.nonce + 1)
    (queue : Set Transaction) :
    Steady (σ.stateNonce a) (σ.Executable a) ⟨σ.kept a, queue, nonce⟩ := by
  obtain ⟨k, hk⟩ := exists_end_kept fit
  rcases Set.eq_empty_or_nonempty (σ.kept a) with empty | ⟨x, hx⟩
  · have behind : nonce ≤ σ.stateNonce a := by
      rw [none_left empty]
      exact nonce_le_of_kept_empty fit unique empty
    rw [empty]
    refine ⟨⟨⟨σ.stateNonce a, fun n hn => iff_of_false ?_ hn.not_gt⟩, fun n hn hlt => ?_⟩, ?_⟩
    · exact fun ⟨x, hx, _⟩ => hx
    · exact absurd (hlt.trans_le behind) hn.not_gt
    · exact fun x hx => absurd hx (Set.notMem_empty x)
  · have above := (hk x.nonce).1 ⟨x, hx, rfl⟩
    obtain ⟨last, hlast, hn⟩ := (hk (k - 1)).2 ⟨by omega, by omega⟩
    have end_eq : nonce = k := by
      rw [some_left last hlast fun y hy => by
        have := (hk y.nonce).1 ⟨y, hy, rfl⟩
        omega]
      omega
    rw [end_eq]
    refine ⟨⟨⟨k, fun n hn => (hk n).trans (and_iff_right hn)⟩, fun n hn hlt => ?_⟩, fun y hy => ?_⟩
    · obtain ⟨y, hy, rfl⟩ := (hk n).2 ⟨hn, hlt⟩
      exact ⟨y, hy, rfl, executable_of_kept hy⟩
    · exact (hk y.nonce).1 ⟨y, hy, rfl⟩

end Shape

namespace TxPool

variable {env : Env} {p q : TxPool} {a b : Address} {tx : Transaction} {dirty : List Address} {low : ℕ}
variable {txs : List Transaction} {state : StateDB} {head : Block} {new : Transaction → Prop}

/-! ## Promoting account by account -/

theorem allSmall_of_leads {isLocal : Bool} (small : AllSmall p.shape)
    (leads : Leads env new isLocal p q) (sound : p.Sound []) (allowed : ∀ tx, new tx → Small tx) :
    AllSmall q.shape :=
  Stocked.leads (fun _ _ _ _ => trivial) small leads sound allowed

section Promotion

variable {P Q : ℕ → (Transaction → Prop) → Account → Prop}
  (keeps : ∀ {s ok new c c'}, P s ok c → (∀ x, ok x → s ≤ x.nonce) → (∀ tx, ¬new tx) →
    Turn ok new c c' → P s ok c')
  (turns : ∀ {q : TxPool} {a : Address}, q.Sound [] → AllSmall q.shape → q.shape.At Q a →
    (q.promoteAccount env a).shape.At P a)
  {accounts : List Address} (sound : q.Sound []) (small : AllSmall q.shape)
  (start : ∀ a, q.shape.At P a ∨ q.shape.At Q a ∧ a ∈ accounts)

include keeps turns sound small start

theorem at_foldl_promote :
    ∀ a, (accounts.foldl (fun q a => q.promoteAccount env a) q).shape.At P a := by
  induction accounts generalizing q with
  | nil => exact fun a => (start a).resolve_right fun h => not_mem_nil h.2
  | cons b accounts ih =>
    have leads : Leads env (fun _ => False) false q (q.promoteAccount env b) := leads_promoteAccount q b
    obtain ⟨sound', out, queue, -, -, heq⟩ := @promoteAccount_spec env q sound b
    refine ih sound' (allSmall_of_leads small leads sound fun _ no => no.elim) fun a => ?_
    rcases start a with done | ⟨waits, ha⟩
    · refine .inl (done.path (leads sound).2 small (fun _ no => no.elim) fun h old turn => ?_)
      exact keeps h old (fun tx no => no.1) turn
    · by_cases hab : a = b
      · subst hab
        exact .inl (turns sound small waits)
      · refine .inr ⟨?_, (mem_cons.1 ha).resolve_left hab⟩
        have same : (q.promoteAccount env b).shape.account a = q.shape.account a := by
          rw [heq]
          exact Shape.account_promote_of_ne hab
        unfold Shape.At
        rw [same, heq]
        exact waits

theorem at_promoteExecutables (a : Address) : (q.promoteExecutables env accounts).shape.At P a := by
  have promoted := at_foldl_promote keeps turns sound small start a
  have folded : Leads env (fun _ => False) false q
      (accounts.foldl (fun q a => q.promoteAccount env a) q) :=
    Leads.foldl accounts (fun p a _ => leads_promoteAccount p a) q
  have small' := allSmall_of_leads small folded sound fun _ no => no.elim
  have limited : Leads env (fun _ => False) false _ (q.promoteExecutables env accounts) :=
    leads_truncate (accounts.foldl (fun q a => q.promoteAccount env a) q)
  exact promoted.path (limited (folded sound).1).2 small' (fun _ no => no.elim)
    fun h old turn => keeps h old (fun tx no => no.1) turn

end Promotion

/-! ## Bringing transactions back -/

/-- With no pending nonces below `low`, the queued transactions below `low` can be executed, and the
account is to be promoted. -/
structure Gathers (a : Address) (low : ℕ) (q : TxPool) (dirty : List Address) : Prop where
  sound : q.Sound []
  free : ∀ n, (q.shape.account a).Has n → low ≤ n
  executable : ∀ x ∈ txsOf q.queue a, x.nonce < low → q.shape.Executable a x
  dirty : ∀ x ∈ txsOf q.queue a, x.nonce < low → a ∈ dirty

/-- What the pool has of the account before and after an addition. -/
structure Grows (a : Address) (q q' : TxPool) : Prop where
  terms : q'.terms = q.terms
  nonce : q'.pendingNonce a = q.pendingNonce a
  has : ∀ n, (q'.shape.account a).Has n ↔ (q.shape.account a).Has n
  queues : ∀ n, (q.shape.account a).Queues n → (q'.shape.account a).Queues n

theorem Grows.refl (a : Address) (q : TxPool) : Grows a q q :=
  ⟨rfl, rfl, fun _ => Iff.rfl, fun _ => id⟩

variable {q' : TxPool}

theorem Grows.trans {q'' : TxPool} (h : Grows a q q') (h' : Grows a q' q'') : Grows a q q'' :=
  ⟨h'.terms.trans h.terms, h'.nonce.trans h.nonce, fun n => (h'.has n).trans (h.has n),
    fun n hn => h'.queues n (h.queues n hn)⟩

theorem Gathers.queues (h : Gathers a low q dirty) {x : Transaction}
    (hx : x ∈ txsOf q.pending a ∨ x ∈ txsOf q.queue a) (hlt : x.nonce < low) :
    (q.shape.account a).Queues x.nonce := by
  rcases hx with pending | queued
  · exact absurd (h.free x.nonce ⟨x, pending, rfl⟩) hlt.not_ge
  · exact ⟨x, queued, rfl⟩

theorem gathers_of_queue_eq {dirty dirty' : List Address} (h : Gathers a low q dirty)
    (sound : q'.Sound []) (terms : q'.terms = q.terms)
    (executable : ∀ x, q'.shape.Executable a x ↔ q.shape.Executable a x)
    (nonce : q'.pendingNonce a = q.pendingNonce a)
    (has : ∀ n, (q'.shape.account a).Has n ↔ (q.shape.account a).Has n)
    (queue : txsOf q'.queue a = txsOf q.queue a) (sub : dirty ⊆ dirty') :
    Gathers a low q' dirty' ∧ Grows a q q' := by
  refine ⟨⟨sound, fun n hn => h.free n ((has n).1 hn), fun x hx hlt => ?_, fun x hx hlt => ?_⟩,
    ⟨terms, nonce, has, fun n hn => ?_⟩⟩
  · rw [queue] at hx
    exact (executable x).2 (h.executable x hx hlt)
  · rw [queue] at hx
    exact sub (h.dirty x hx hlt)
  · show ∃ x ∈ txsOf q'.queue a, _
    rw [queue]
    exact hn

theorem Entered.frame {σ : Shape} (entered : Entered q q' σ) (terms : σ.terms = q.terms)
    (nonces : σ.nonces = q.shape.nonces) (a : Address) : q'.terms = q.terms ∧
      (∀ x, q'.shape.Executable a x ↔ q.shape.Executable a x) ∧
        q'.pendingNonce a = q.pendingNonce a := by
  have terms' : q'.terms = q.terms := (congrArg Shape.terms entered.shape).trans terms
  refine ⟨terms', fun x => ?_, congrFun ((congrArg Shape.nonces entered.shape).trans nonces) a⟩
  unfold Shape.Executable Shape.stateNonce
  rw [show q'.shape.terms = q.shape.terms from terms']

theorem gathers_accept {dirty dirty' : List Address} (h : Gathers a low q dirty)
    (executable : q.shape.Executable b tx)
    (entered : Entered q q' (q.shape.setQueue b (Shape.put (txsOf q.queue b) tx)))
    (sub : dirty ⊆ dirty')
    (new : (∀ old ∈ txsOf q.queue b, old.nonce ≠ tx.nonce) → b ∈ dirty') :
    Gathers a low q' dirty' ∧ Grows a q q' ∧ (a = b → (q'.shape.account a).Queues tx.nonce) := by
  obtain ⟨terms, executable_iff, nonce⟩ := entered.frame rfl rfl a
  have pending : txsOf q'.pending = txsOf q.pending := congrArg Shape.pending entered.shape
  have queue : txsOf q'.queue = update (txsOf q.queue) b (Shape.put (txsOf q.queue b) tx) :=
    congrArg Shape.queue entered.shape
  have has (n : ℕ) : (q'.shape.account a).Has n ↔ (q.shape.account a).Has n := by
    show (∃ x ∈ txsOf q'.pending a, _) ↔ _
    rw [pending]
    rfl
  by_cases hab : a = b
  · subst hab
    have here : txsOf q'.queue a = Shape.put (txsOf q.queue a) tx := by
      rw [queue, update_self]
    have queues (n : ℕ) :
        (q'.shape.account a).Queues n ↔ tx.nonce = n ∨ (q.shape.account a).Queues n := by
      show (∃ x ∈ txsOf q'.queue a, _) ↔ _
      rw [here]
      exact Account.exists_put
    refine ⟨⟨entered.sound, fun n hn => h.free n ((has n).1 hn), fun x hx hlt => ?_,
      fun x hx hlt => ?_⟩, ⟨terms, nonce, has, fun n hn => (queues n).2 (.inr hn)⟩,
      fun _ => (queues _).2 (.inl rfl)⟩
    · rw [here] at hx
      rw [executable_iff]
      rcases hx with rfl | ⟨hx, -⟩
      · exact executable
      · exact h.executable x hx hlt
    · rw [here] at hx
      rcases hx with rfl | ⟨hx, -⟩
      · by_cases held : ∃ old ∈ txsOf q.queue a, old.nonce = x.nonce
        · obtain ⟨old, hold, same⟩ := held
          exact sub (h.dirty old hold (same.trans_lt hlt))
        · exact new fun old hold same => held ⟨old, hold, same⟩
      · exact sub (h.dirty x hx hlt)
  · have here : txsOf q'.queue a = txsOf q.queue a := by
      rw [queue, update_of_ne hab]
    have moved := gathers_of_queue_eq h entered.sound terms executable_iff nonce has here sub
    exact ⟨moved.1, moved.2, fun heq => absurd heq hab⟩

theorem gathers_replace (h : Gathers a low q dirty)
    {old : Transaction} (held : old ∈ txsOf q.pending b) (same : old.nonce = tx.nonce)
    (entered : Entered q q' (q.shape.setPending b (Shape.put (txsOf q.pending b) tx))) :
    Gathers a low q' dirty ∧ Grows a q q' := by
  obtain ⟨terms, executable_iff, nonce⟩ := entered.frame rfl rfl a
  have pending : txsOf q'.pending =
      update (txsOf q.pending) b (Shape.put (txsOf q.pending b) tx) :=
    congrArg Shape.pending entered.shape
  have queue : txsOf q'.queue = txsOf q.queue := congrArg Shape.queue entered.shape
  have has (n : ℕ) : (q'.shape.account a).Has n ↔ (q.shape.account a).Has n := by
    show (∃ x ∈ txsOf q'.pending a, _) ↔ _
    rw [pending]
    by_cases hab : a = b
    · subst hab
      rw [update_self]
      exact Account.exists_put_of_held held same
    · rw [update_of_ne hab]
      rfl
  exact gathers_of_queue_eq h entered.sound terms executable_iff nonce has (congrFun queue a)
    (Subset.refl dirty)

theorem gathers_add (h : Gathers a low q dirty) (room : q.full env = false) (tx : Transaction) :
    Gathers a low (q.add env tx false).1 (dirtyAfter dirty tx (q.add env tx false).2) ∧
      Grows a q (q.add env tx false).1 ∧
      (q.add env tx false).1.all.entries.length ≤ q.all.entries.length + 1 ∧
      (tx.sender = some a → tx.nonce < low → q.validateTx tx false = .ok () →
        (∀ z, q.Pooled z → z.hash = tx.hash → z = tx) →
        ((q.add env tx false).1.shape.account a).Queues tx.nonce) := by
  unfold add
  cases hknown : q.all.lookup tx.hash with
  | some z =>
    refine ⟨h, .refl a q, Nat.le_succ _, fun sender hlt _ same => ?_⟩
    obtain ⟨hash, held⟩ := (h.sound.indexed.mem_all _ z).1 hknown
    obtain ⟨place, b, hz⟩ := held.resolve_right not_mem_nil
    have pooled : z ∈ txsOf q.pending b ∨ z ∈ txsOf q.queue b := by
      cases place with
      | pending => exact .inl hz
      | queue => exact .inr hz
    obtain rfl := same z ⟨b, pooled⟩ hash
    obtain rfl : b = a := some.inj ((h.sound.indexed.sender hz).symm.trans sender)
    exact h.queues pooled hlt
  | none =>
    rw [if_neg (by simp), room]
    cases hvalid : q.validateTx tx false with
    | error e => exact ⟨h, .refl a q, Nat.le_succ _, fun _ _ valid => nomatch valid⟩
    | ok u =>
      obtain ⟨b, sender, executable⟩ := executable_of_validateTx hvalid
      cases insert_cases h.sound sender hknown with
      | refused rival heq =>
        rw [heq]
        refine ⟨h, .refl a q, Nat.le_succ _, fun sender' hlt _ _ => ?_⟩
        obtain rfl : b = a := some.inj (sender.symm.trans sender')
        rw [← rival.2] at hlt ⊢
        exact h.queues rival.1 hlt
      | replaced held same heq entered =>
        rw [heq]
        obtain ⟨gathers, grows⟩ := gathers_replace h held same entered
        refine ⟨gathers, grows, entered.size, fun sender' hlt _ _ => ?_⟩
        obtain rfl : b = a := some.inj (sender.symm.trans sender')
        exact absurd (h.free _ ⟨_, held, same⟩) hlt.not_ge
      | @queued q' replaced _ heq entered old =>
        rw [heq]
        obtain ⟨gathers, grows, queues⟩ := @gathers_accept q a b tx low q' dirty
          (dirtyAfter dirty tx (.ok replaced)) h executable entered
          (fun x hx => by
            cases replaced with
            | false => exact mem_insert_of_mem hx
            | true => exact hx)
          (fun unheld => by
            cases replaced with
            | false =>
              show b ∈ dirty.insert (tx.sender.getD 0)
              rw [sender]
              exact mem_insert_self
            | true =>
              obtain ⟨prior, hprior, same⟩ := old rfl
              exact absurd same (unheld prior hprior))
        exact ⟨gathers, grows, entered.size, fun sender' _ _ _ =>
          queues (some.inj (sender'.symm.trans sender))⟩

theorem pooled_add (sound : q.Sound []) {z : Transaction} (h : (q.add env tx false).1.Pooled z) :
    q.Pooled z ∨ z = tx := by
  have stocked : Stocked (fun z => q.Pooled z ∨ z = tx) (fun _ => True) q.shape :=
    ⟨fun a x hx => .inl ⟨a, .inl hx⟩, fun a x hx => .inl ⟨a, .inr hx⟩, trivial⟩
  have after := stocked.leads (fun _ _ _ _ => trivial) (@leads_add env q tx false) sound
    fun y hy => .inr hy.1
  obtain ⟨a, hz | hz⟩ := h
  · exact after.pending a z hz
  · exact after.queue a z hz

theorem gathers_addEach
    (h : Gathers a low q dirty) (room : q.all.entries.length + txs.length ≤ (limit env).toNat) :
    Gathers a low (addEach env false txs q dirty).1 (addEach env false txs q dirty).2 ∧
      Grows a q (addEach env false txs q dirty).1 ∧
      ∀ y ∈ txs, y.sender = some a → y.nonce < low → q.validateTx y false = .ok () →
        (∀ z, q.Pooled z ∨ z ∈ txs → z.hash = y.hash → z = y) →
        ((addEach env false txs q dirty).1.shape.account a).Queues y.nonce := by
  induction txs generalizing q dirty with
  | nil => exact ⟨h, .refl a q, fun y hy => absurd hy not_mem_nil⟩
  | cons tx txs ih =>
    rw [length_cons] at room
    have not_full : q.full env = false := by
      unfold full
      rw [decide_eq_false_iff_not]
      omega
    obtain ⟨gathers, grows, size, queued⟩ := gathers_add h not_full tx
    obtain ⟨gathers', grows', queued'⟩ := ih gathers (by omega)
    rw [addEach_cons]
    refine ⟨gathers', grows.trans grows', fun y hy sender hlt valid same => ?_⟩
    rcases mem_cons.1 hy with rfl | hy
    · exact grows'.queues _ (queued sender hlt valid fun z hz => same z (.inl hz))
    · refine queued' y hy sender hlt (validateTx_congr grows.terms y false ▸ valid) fun z hz => ?_
      rcases hz with hz | hz
      · rcases pooled_add h.sound hz with hz | rfl
        · exact same z (.inl hz)
        · exact same z (.inr mem_cons_self)
      · exact same z (.inr (mem_cons_of_mem tx hz))

/-! ## Settling -/

theorem Sound.unique (h : p.Sound []) (a : Address) :
    ∀ x ∈ p.shape.pending a, ∀ y ∈ p.shape.pending a, x.nonce = y.nonce → x = y := by
  intro x hx y hy same
  have hx : x ∈ p.view.lists .pending a := hx
  have hy : y ∈ p.view.lists .pending a := hy
  exact h.indexed.slots (.inl ⟨_, _, hx⟩) (.inl ⟨_, _, hy⟩)
    ((h.indexed.sender hx).trans (h.indexed.sender hy).symm) same

theorem fit_promoteAccount (sound : q.Sound []) (small : AllSmall q.shape)
    (refilled : q.shape.At Refilled a) : (q.promoteAccount env a).shape.At Fit a := by
  obtain ⟨low, high, covered⟩ := refilled
  obtain ⟨-, out, queue, ready, -, heq⟩ := @promoteAccount_spec env q sound a
  have nonce : q.shape.nonces a = q.shape.stateNonce a := covered.nonce
  -- The lowest nonce is queued, so the account does not wait.
  have nonempty : out ≠ [] := by
    intro empty
    obtain ⟨x, hx, hn⟩ := covered.queues _ le_rfl covered.fallen
    have waits := ready.waiting empty x hx (covered.executable x hx (hn.trans_lt covered.fallen))
    omega
  obtain ⟨first, run, start, after, here⟩ := @Shape.Ready.account env _ _ _ queue ready
    (small.queue a) nonempty
  have mem (n : ℕ) := @exists_mem_of_run out n first run
  have pos : 0 < out.length := length_pos_iff.2 nonempty
  have first_eq : first = q.shape.stateNonce a := by
    obtain ⟨x, hx, rfl⟩ := (mem first).2 ⟨le_rfl, Nat.lt_add_of_pos_right pos⟩
    exact le_antisymm (nonce ▸ start) (ready.queued x hx).2.1
  -- The run ends where the pending transactions begin.
  have end_eq : first + out.length = low := by
    refine le_antisymm (not_lt.1 fun beyond => ?_) (not_lt.1 fun short => ?_)
    · obtain ⟨y, hy, same⟩ := (covered.has low).2 ⟨le_rfl, covered.nonempty⟩
      obtain ⟨x, hx, hn⟩ := (mem low).2 ⟨first_eq ▸ covered.fallen.le, beyond⟩
      exact sound.apart hy (ready.queued x hx).1 (same.trans hn.symm)
    · obtain ⟨x, hx, hn⟩ := covered.queues (first + out.length) (by omega) short
      rcases after x hx (covered.executable x hx (hn.trans_lt short)) with hout | later
      · have := (mem x.nonce).1 ⟨x, hout, rfl⟩
        omega
      · omega
  left
  rw [heq, here, end_eq]
  refine ⟨⟨high, fun n hn => ⟨?_, fun hlt => ?_⟩⟩, fun n hn hlt => ?_⟩
  · rintro ⟨x, hx | hx, rfl⟩
    · exact ((covered.has _).1 ⟨x, hx, rfl⟩).2
    · have := (mem x.nonce).1 ⟨x, hx, rfl⟩
      have := covered.nonempty
      omega
  · rcases lt_or_ge n low with below | above
    · obtain ⟨x, hx, hxn⟩ := (mem n).2 ⟨first_eq.trans_le hn, end_eq ▸ below⟩
      exact ⟨x, .inr hx, hxn⟩
    · obtain ⟨x, hx, hxn⟩ := (covered.has n).2 ⟨above, hlt⟩
      exact ⟨x, .inl hx, hxn⟩
  · obtain ⟨x, hx, hxn⟩ := (mem n).2 ⟨first_eq.trans_le hn, end_eq ▸ hlt⟩
    exact ⟨x, .inr hx, hxn, (ready.queued x hx).2⟩

theorem Fit.turn {s : ℕ} {ok new : Transaction → Prop} {c c' : Account} (h : Fit s ok c)
    (old : ∀ x, ok x → s ≤ x.nonce) (none_new : ∀ tx, ¬new tx) (turn : Turn ok new c c') :
    Fit s ok c' :=
  h.imp (fun h => h.turn old turn) fun h => h.turn old (fun tx htx => absurd htx (none_new tx)) turn

/-- The first of the lost nonces does not come back, or all do: there is room, and each has a valid
transaction with a hash of its own. -/
def Regains (env : Env) (p p' : TxPool) (txs : List Transaction) (a : Address) : Prop :=
  (∀ y ∈ txs, y.sender = some a → y.nonce = p'.stateNonce a → p'.validateTx y false ≠ .ok ()) ∨
    p.all.entries.length + txs.length ≤ (limit env).toNat ∧
      ∀ n, p'.stateNonce a ≤ n → n < p.stateNonce a → ∃ y ∈ txs, y.sender = some a ∧ y.nonce = n ∧
        p'.validateTx y false = .ok () ∧ ∀ z, p.Pooled z ∨ z ∈ txs → z.hash = y.hash → z = y

theorem aligned_follow (steady : p.shape.At Steady a)
    (safe : txsOf p.pending a = ∅ ∨ p.stateNonce a ≤ (p.follow state head).stateNonce a) :
    (p.follow state head).shape.At Aligned a := by
  refine ⟨?_, fun n hn hlt => absurd hlt hn.not_gt⟩
  rcases safe with empty | risen
  · refine ⟨(p.follow state head).stateNonce a, fun n hn => iff_of_false ?_ (not_lt.2 hn)⟩
    rintro ⟨x, hx, -⟩
    have hx : x ∈ txsOf p.pending a := hx
    rw [empty] at hx
    exact hx
  · exact ⟨p.pendingNonce a, fun n hn => (steady.has_iff n).trans (and_iff_right (risen.trans hn))⟩

theorem regained (sound : p.Sound [])
    (small : AllSmall p.shape) (settled : p.shape.At Settled a) (allowed : ∀ tx ∈ txs, Small tx)
    (pending : (txsOf p.pending a).Nonempty)
    (fallen : (p.follow state head).stateNonce a < p.stateNonce a)
    (regains : Regains env p (p.follow state head) txs a)
    (hadd : addEach env false txs (p.follow state head) [] = (q, dirty)) :
    q.shape.At Fit a ∨ q.shape.At Refilled a ∧ a ∈ dirty := by
  have sound' : (p.follow state head).Sound [] := sound.congr rfl rfl rfl
  have small' : AllSmall (p.follow state head).shape := ⟨small.pending, small.queue, trivial⟩
  rcases regains with lost | ⟨room, back⟩
  · -- The account waits for the nonce in the state, and nothing with this nonce enters.
    have blocked : (p.follow state head).shape.At (fun s _ c => Blocked s c) a := by
      refine ⟨?_, ?_, le_rfl⟩
      · rintro ⟨x, hx, hn⟩
        exact absurd ((settled.low x hx).1.trans_eq hn) fallen.not_ge
      · rintro ⟨x, hx, hn⟩
        exact absurd ((settled.fresh x hx).trans_eq hn) fallen.not_ge
    have leads := @leads_addEach env (p.follow state head) txs (p.follow state head) rfl []
    rw [hadd] at leads
    refine .inl (.inr ?_)
    refine blocked.path (leads sound').2 small' (fun tx htx => allowed tx htx.1) fun h old turn => ?_
    exact h.turn old (fun tx htx hn => lost tx htx.1.1 htx.2 hn htx.1.2) turn
  · right
    have gathers : Gathers a (p.stateNonce a) (p.follow state head) [] := by
      refine ⟨sound', fun n hn => ?_, fun x hx hlt => ?_, fun x hx hlt => ?_⟩
      · obtain ⟨x, hx, rfl⟩ := hn
        exact (settled.low x hx).1
      · exact absurd (settled.fresh x hx) hlt.not_ge
      · exact absurd (settled.fresh x hx) hlt.not_ge
    have after := gathers_addEach gathers room
    rw [hadd] at after
    obtain ⟨gathered, grows, queued⟩ := after
    have nonce : ∀ q : TxPool, q.terms = (p.follow state head).terms →
        q.shape.stateNonce a = (p.follow state head).stateNonce a := fun q hq => by
      unfold Shape.stateNonce shape
      rw [hq]
      rfl
    have same := nonce _ grows.terms
    have queues (n : ℕ) (hn : (p.follow state head).stateNonce a ≤ n) (hlt : n < p.stateNonce a) :
        (q.shape.account a).Queues n := by
      obtain ⟨y, hy, sender, rfl, valid, hash⟩ := back n hn hlt
      exact queued y hy sender hlt valid hash
    constructor
    · obtain ⟨x, hx⟩ := pending
      have within := settled.low x hx
      refine ⟨p.stateNonce a, p.pendingNonce a, ⟨same ▸ fallen, within.1.trans_lt within.2, fun n => ?_,
        grows.nonce.trans same.symm, fun n hn => queues n (same ▸ hn), gathered.executable⟩⟩
      exact (grows.has n).trans (settled.toSteady.has_iff n)
    · obtain ⟨x, hx, hn⟩ := queues _ le_rfl fallen
      exact gathered.dirty x hx (hn.trans_lt fallen)

theorem fit_reinjected (sound : p.Sound [])
    (small : AllSmall p.shape) (settled : ∀ a, p.shape.At Settled a) (allowed : ∀ tx ∈ txs, Small tx)
    (regains : ∀ a, (txsOf p.pending a).Nonempty →
      (p.follow state head).stateNonce a < p.stateNonce a →
      Regains env p (p.follow state head) txs a) (a : Address) :
    ((p.follow state head).addTxsLocked env txs false).shape.At Fit a := by
  have sound' : (p.follow state head).Sound [] := sound.congr rfl rfl rfl
  have small' : AllSmall (p.follow state head).shape := ⟨small.pending, small.queue, trivial⟩
  have leads := @leads_addEach env (p.follow state head) txs (p.follow state head) rfl []
  unfold addTxsLocked
  obtain ⟨q, dirty, hadd⟩ : ∃ q dirty, addEach env false txs (p.follow state head) [] = (q, dirty) :=
    ⟨_, _, rfl⟩
  rw [hadd] at leads ⊢
  have added (a : Address) : q.shape.At Fit a ∨ q.shape.At Refilled a ∧ a ∈ dirty := by
    by_cases safe : txsOf p.pending a = ∅ ∨ p.stateNonce a ≤ (p.follow state head).stateNonce a
    · have aligned := aligned_follow (settled a).toSteady safe
      have after : q.shape.At Aligned a :=
        aligned.path (leads sound').2 small' (fun tx htx => allowed tx htx.1)
          fun h old turn => h.turn old turn
      exact .inl (.inl after)
    · obtain ⟨pending, fallen⟩ := not_or.1 safe
      have pending := Set.nonempty_iff_ne_empty.2 pending
      have fallen := not_le.1 fallen
      exact regained sound small (settled a) allowed pending fallen (regains a pending fallen) hadd
  have sound_added := (leads sound').1
  have small_added := allSmall_of_leads small' leads sound' fun tx htx => allowed tx htx.1
  dsimp only at sound_added small_added ⊢
  split_ifs with clean
  · exact (added a).resolve_right fun h => by
      rw [clean] at h
      exact not_mem_nil h.2
  · have ticked : Sound { q with tick := q.tick + 1 } [] := sound_added.congr rfl rfl rfl
    have perm := env.addresses_perm q.tick dirty
    exact at_promoteExecutables Fit.turn fit_promoteAccount ticked small_added
      (fun a => (added a).imp_right fun h => ⟨h.1, perm.mem_iff.2 h.2⟩) a

theorem settled_promoteAccount (sound : q.Sound []) (small : AllSmall q.shape)
    (steady : q.shape.At Steady a) : (q.promoteAccount env a).shape.At Settled a := by
  have leads : Leads env (fun _ => False) false q (q.promoteAccount env a) := leads_promoteAccount q a
  obtain ⟨-, out, queue, -, queued, heq⟩ := @promoteAccount_spec env q sound a
  have after : (q.promoteAccount env a).shape.At Steady a :=
    steady.path (leads sound).2 small (fun _ no => no.elim) fun h old turn => h.turn old turn
  refine ⟨after, fun x hx => ?_⟩
  rw [heq] at hx ⊢
  have hx : x ∈ update q.shape.queue a queue a := hx
  rw [update_self] at hx
  exact (queued x hx).2.1.1

theorem settled_promoteQueued (sound : q.Sound []) (small : AllSmall q.shape)
    (steady : ∀ a, q.shape.At Steady a) (a : Address) : (q.promoteQueued env).shape.At Settled a := by
  have sound' : Sound { q with tick := q.tick + 1 } [] := sound.congr rfl rfl rfl
  have perm := env.addresses_perm q.tick q.queue.keys
  refine at_promoteExecutables (Q := Steady) (fun h old _ turn => h.turn old turn)
    settled_promoteAccount sound' small (fun a => ?_) a
  by_cases ha : a ∈ q.queue
  · exact .inr ⟨steady a, perm.mem_iff.2 ha⟩
  · -- An account without a list has nothing queued.
    refine .inl ⟨steady a, fun x hx => ?_⟩
    have hx : x ∈ txsOf q.queue a := hx
    rw [txsOf_of_lookup_none (AList.lookup_eq_none.2 ha)] at hx
    exact absurd hx (Set.notMem_empty x)

theorem settled_settle (sound : p.Sound []) (small : AllSmall p.shape) (fit : ∀ a, p.shape.At Fit a)
    (a : Address) : (p.settle env).shape.At Settled a := by
  obtain ⟨q, heq, sound', terms, -, pending, queue, empty, last⟩ := @settle_spec env _ sound
  have small' : AllSmall q.shape := by
    refine ⟨fun a x hx => ?_, fun a x hx => (queue a x hx).elim (small.queue a x) (small.pending a x),
      trivial⟩
    have kept : x ∈ txsOf q.pending a := hx
    rw [pending] at kept
    exact small.pending a x kept.1
  have steady (a : Address) : q.shape.At Steady a := by
    have left := Shape.steady_kept (fit a) (sound.unique a) (empty a)
      (fun x hx top => by
        rw [last a x hx top]
        exact Nat.mod_eq_of_lt (small.pending a x hx.1)) (txsOf q.queue a)
    unfold Shape.At Shape.Executable Shape.stateNonce Shape.account shape
    rw [terms, pending]
    exact left
  rw [heq]
  exact settled_promoteQueued sound' small' steady a

/-! ## Runs -/

/-- The list of the account holds the transaction. -/
def Holds (lists : Lists) (a : Address) (tx : Transaction) : Prop :=
  ∃ l, lists.lookup a = some l ∧ l.txs.get tx.nonce = some tx

/-- The invariant of the pool, in terms of its maps. -/
structure Consistent (p : TxPool) : Prop where
  located : ∀ hash tx, p.all.lookup hash = some tx → tx.hash = hash ∧ ∃ a, tx.sender = some a ∧
    (Holds p.pending a tx ∧ ¬Holds p.queue a tx ∨ Holds p.queue a tx ∧ ¬Holds p.pending a tx) ∧
    ∀ b ≠ a, ¬Holds p.pending b tx ∧ ¬Holds p.queue b tx
  listed : ∀ a l, p.pending.lookup a = some l ∨ p.queue.lookup a = some l →
    ∀ tx ∈ l.txs, p.all.lookup tx.hash = some tx
  gapless : ∀ a l, p.pending.lookup a = some l → ∀ x ∈ l.txs, ∃ last ∈ l.txs,
    (∀ n, (∃ y ∈ l.txs, y.nonce = n) ↔ p.stateNonce a ≤ n ∧ n ≤ last.nonce) ∧
    p.pendingNonce a = last.nonce + 1

theorem holds_iff {lists : Lists} : Holds lists a tx ↔ tx ∈ txsOf lists a := by
  refine exists_congr fun l => and_congr_right fun _ => ?_
  exact SortedMap.get_eq_some_iff.trans (and_iff_left rfl)

theorem consistent_of_settled (sound : p.Sound []) (settled : ∀ a, p.shape.At Settled a) :
    Consistent p where
  located hash tx known := by
    obtain ⟨same, held⟩ := (sound.indexed.mem_all hash tx).1 known
    obtain ⟨place, a, hx⟩ := held.resolve_right not_mem_nil
    have elsewhere (place : Place) (b : Address) (hne : b ≠ a) : tx ∉ p.view.lists place b := fun hb =>
      hne (some.inj ((sound.indexed.sender hb).symm.trans (sound.indexed.sender hx)))
    refine ⟨same, a, sound.indexed.sender hx, ?_, fun b hne =>
      ⟨fun h => elsewhere .pending b hne (holds_iff.1 h),
        fun h => elsewhere .queue b hne (holds_iff.1 h)⟩⟩
    cases place with
    | pending =>
      refine .inl ⟨holds_iff.2 hx, fun h => ?_⟩
      have hqueue : tx ∈ p.view.lists .queue a := holds_iff.1 h
      exact nomatch sound.indexed.place hx hqueue
    | queue =>
      refine .inr ⟨holds_iff.2 hx, fun h => ?_⟩
      have hpending : tx ∈ p.view.lists .pending a := holds_iff.1 h
      exact nomatch sound.indexed.place hx hpending
  listed a l hl tx htx := by
    refine (sound.indexed.mem_all tx.hash tx).2 ⟨rfl, .inl ?_⟩
    rcases hl with hl | hl
    · exact ⟨.pending, a, l, hl, htx⟩
    · exact ⟨.queue, a, l, hl, htx⟩
  gapless a l hl x hx := by
    have whole : txsOf p.pending a = { x | x ∈ l.txs } := txsOf_of_lookup hl
    have has (n : ℕ) : (∃ y ∈ l.txs, y.nonce = n) ↔ p.stateNonce a ≤ n ∧ n < p.pendingNonce a := by
      have within : (∃ y ∈ txsOf p.pending a, y.nonce = n) ↔ _ := (settled a).toSteady.has_iff n
      rw [whole] at within
      exact within
    have above := (has x.nonce).1 ⟨x, hx, rfl⟩
    obtain ⟨last, hlast, hn⟩ := (has (p.pendingNonce a - 1)).2 ⟨by omega, by omega⟩
    refine ⟨last, hlast, fun n => (has n).trans (and_congr_right fun _ => ?_), ?_⟩
    · omega
    · omega

/-- Of each account whose nonce falls below its pending transactions, the lost nonces come back
together or not at all. -/
def Recovers (env : Env) (p : TxPool) (ev : HeadChange) : Prop :=
  ∀ txs state, ev.reinject = .offers txs → ev.chain.stateAt ev.newHead.root = some state →
    ∀ a, (txsOf p.pending a).Nonempty → (p.follow state ev.newHead).stateNonce a < p.stateNonce a →
      Regains env p (p.follow state ev.newHead) txs a

/-- No transaction with the largest nonce enters, and resets recover. -/
def Orderly (env : Env) (p : TxPool) (op : Op) : Prop :=
  (∀ tx, op.Enters tx → Small tx) ∧
    match op with
    | .reset ev => Recovers env p ev
    | _ => True

theorem settled_leads {isLocal : Bool} (sound : p.Sound [])
    (small : AllSmall p.shape) (settled : p.shape.At Settled a) (leads : Leads env new isLocal p q)
    (allowed : ∀ tx, new tx → Small tx) : q.shape.At Settled a :=
  settled.path (leads sound).2 small allowed fun h old turn => h.turn old turn

theorem settled_step {op : Op} (sound : p.Sound []) (small : AllSmall p.shape)
    (settled : ∀ a, p.shape.At Settled a) (cond : Orderly env p op) (hs : p.step env op = some q)
    (a : Address) : q.shape.At Settled a := by
  rcases step_cases hs with ⟨price, isLocal, leads⟩ | ⟨ev, txs, state, rfl, hreinject, hstate, rfl⟩
  · have sound' : Sound { p with gasPrice := price } [] := sound.congr rfl rfl rfl
    have small' : AllSmall (shape { p with gasPrice := price }) :=
      ⟨small.pending, small.queue, trivial⟩
    have settled' : (shape { p with gasPrice := price }).At Settled a := settled a
    exact settled_leads sound' small' settled' leads cond.1
  · have allowed (tx : Transaction) (htx : tx ∈ txs) : Small tx := cond.1 tx ⟨txs, hreinject, htx⟩
    have followed : (p.follow state ev.newHead).Sound [] := sound.congr rfl rfl rfl
    have small' : AllSmall (p.follow state ev.newHead).shape :=
      ⟨small.pending, small.queue, trivial⟩
    have leads := @leads_addTxsLocked env (p.follow state ev.newHead) txs false
    exact settled_settle (leads followed).1 (allSmall_of_leads small' leads followed allowed)
      (fit_reinjected sound small settled allowed (cond.2 txs state hreinject hstate)) a

/-- In an orderly run the indexes agree after every operation. -/
theorem consistent_run (gasPrice : ℤ) (state : StateDB) (maxGas : UInt64) (ops : List Op)
    (cond : Runs.Throughout (step env) (Orderly env) (TxPool.new gasPrice state maxGas) ops) :
    Runs.Always (step env) Consistent (TxPool.new gasPrice state maxGas) ops := by
  have start (a : Address) : (TxPool.new gasPrice state maxGas).shape.At Settled a := by
    have none_in (x : Transaction) : x ∉ txsOf (∅ : Lists) a := fun ⟨_, hl, _⟩ => nomatch hl
    refine ⟨⟨⟨⟨(TxPool.new gasPrice state maxGas).stateNonce a, fun n hn => iff_of_false ?_
      (not_lt.2 hn)⟩, fun n hn hlt => absurd hlt (not_lt.2 hn)⟩, fun x hx => absurd hx (none_in x)⟩,
      fun x hx => absurd hx (none_in x)⟩
    exact fun ⟨x, hx, _⟩ => none_in x hx
  let I : TxPool → Prop := fun p => p.Sound [] ∧ AllSmall p.shape ∧ ∀ a, p.shape.At Settled a
  have first : I (TxPool.new gasPrice state maxGas) :=
    ⟨sound_new gasPrice state maxGas, stocked_new gasPrice state maxGas trivial, start⟩
  have keeps (p : TxPool) (op : Op) (q : TxPool) (h : I p) (orderly : Orderly env p op)
      (hs : p.step env op = some q) : I q :=
    ⟨sound_step h.1 hs, Stocked.step (fun _ _ _ _ => trivial) h.2.1 h.1 orderly.1 hs,
      settled_step h.1 h.2.1 h.2.2 orderly hs⟩
  exact Runs.always_of_throughout keeps (fun p h => consistent_of_settled h.1 h.2.2) first cond

/-- A head with the given transactions is given up for an empty one, and every account has the nonce
3 again. -/
def sampleFork (txs : List Transaction) : HeadChange where
  chain := sampleChain
    [{ sampleHead [] with hash := 99, number := 0 }, { sampleHead txs with hash := 101 }, sampleHead []]
    fun _ => some (sampleState 3)
  oldHead := some { sampleHead txs with hash := 101 }
  newHead := sampleHead []

/-- The transaction with nonce 3 comes back, and the one with nonce 4 pays too little. -/
theorem fork_leaves_gap : ∃ p, Runs.run (step (sampleEnv 4096 1024 fun _ => false)) (samplePool 5)
        [.addRemote (sampleTx 5 1 5 10), .addRemote (sampleTx 6 1 6 10), .addRemote (sampleTx 7 1 7 10),
          .reset (sampleFork [sampleTx 3 1 3 10, sampleTx 4 1 4 0])] = some p ∧
      ((p.pending.lookup 1).map fun l => l.txs.items.map (·.nonce)) = some [3, 5, 6, 7] ∧
      ¬Consistent p := by
  have ran : (Runs.run (step (sampleEnv 4096 1024 fun _ => false)) (samplePool 5)
      [.addRemote (sampleTx 5 1 5 10), .addRemote (sampleTx 6 1 6 10), .addRemote (sampleTx 7 1 7 10),
        .reset (sampleFork [sampleTx 3 1 3 10, sampleTx 4 1 4 0])]).map (fun p =>
          (p.pending.lookup 1).map fun l => l.txs.items.map (·.nonce)) = some (some [3, 5, 6, 7]) := by
    decide +kernel
  obtain ⟨p, hp, pending⟩ := map_eq_some_iff.1 ran
  refine ⟨p, hp, pending, fun consistent => ?_⟩
  obtain ⟨l, hl, nonces⟩ := map_eq_some_iff.1 pending
  have has (n : ℕ) : (∃ y ∈ l.txs, y.nonce = n) ↔ n ∈ [3, 5, 6, 7] := by
    rw [← nonces]
    exact mem_map.symm
  obtain ⟨x, hx, -⟩ := (has 3).2 (by decide)
  obtain ⟨last, -, interval, -⟩ := consistent.gapless 1 l hl x hx
  have low := (interval 3).1 ((has 3).2 (by decide))
  have high := (interval 7).1 ((has 7).2 (by decide))
  exact absurd ((has 4).1 ((interval 4).2 ⟨by omega, by omega⟩)) (by decide)

theorem consistent_fork :
    Runs.Always (step (sampleEnv 4096 1024 fun _ => false)) Consistent (samplePool 5)
      [.addRemote (sampleTx 5 1 5 10), .reset (sampleFork [sampleTx 4 1 4 10])] := by
  have run := @consistent_run (sampleEnv 4096 1024 fun _ => false) 1 (sampleState 5) 1000000
    [.addRemote (sampleTx 5 1 5 10), .reset (sampleFork [sampleTx 4 1 4 10])]
  have back : (sampleFork [sampleTx 4 1 4 10]).reinject = .offers [sampleTx 4 1 4 10] := rfl
  refine run ⟨⟨?_, trivial⟩, fun p _ => ⟨⟨?_, ?_⟩, fun _ _ => trivial⟩⟩
  · rintro tx rfl
    show (5 : ℕ) + 1 < 2 ^ 64
    decide
  · rintro tx ⟨txs, hreinject, htx⟩
    obtain rfl := Reinjection.offers.inj (back.symm.trans hreinject)
    obtain rfl := mem_singleton.1 htx
    show (4 : ℕ) + 1 < 2 ^ 64
    decide
  · intro txs state hreinject hstate a _ _
    obtain rfl := Reinjection.offers.inj (back.symm.trans hreinject)
    obtain rfl := some.inj hstate
    refine .inl fun y hy _ hn => ?_
    obtain rfl := mem_singleton.1 hy
    have nonce : (4 : ℕ) = 3 := hn
    omega

end TxPool

end JuChain.Pool
