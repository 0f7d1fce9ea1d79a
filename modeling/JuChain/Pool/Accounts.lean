import JuChain.Pool.DApp

/-!
# One account

Each move changes one account (`Turn`).  The pending transactions of an account are `Aligned`, or,
after a head with a lower nonce, the account is `Blocked`: it waits for a transaction.
-/

namespace JuChain.Pool

open State Relation List Function Option

variable {out : List Transaction} {env : Env} {n first : ℕ} {a : Address} {σ : Shape}

/-- What the pool holds of one account, and the next nonce of the account. -/
structure Account where
  pending : Set Transaction
  queue : Set Transaction
  nonce : ℕ

/-- The part of the pool for an address. -/
def Shape.account (σ : Shape) (a : Address) : Account := ⟨σ.pending a, σ.queue a, σ.nonces a⟩

namespace Account

/-- A pending transaction has the nonce. -/
def Has (c : Account) (n : ℕ) : Prop := ∃ x ∈ c.pending, x.nonce = n

/-- A queued transaction has the nonce. -/
def Queues (c : Account) (n : ℕ) : Prop := ∃ x ∈ c.queue, x.nonce = n

theorem exists_put {txs : Set Transaction} {tx : Transaction} :
    (∃ x ∈ Shape.put txs tx, x.nonce = n) ↔ tx.nonce = n ∨ ∃ x ∈ txs, x.nonce = n := by
  constructor
  · rintro ⟨x, rfl | ⟨hx, -⟩, hn⟩
    · exact .inl hn
    · exact .inr ⟨x, hx, hn⟩
  · intro h
    by_cases hn : tx.nonce = n
    · exact ⟨tx, .inl rfl, hn⟩
    · obtain ⟨x, hx, rfl⟩ := h.resolve_left hn
      exact ⟨x, .inr ⟨hx, Ne.symm hn⟩, rfl⟩

theorem exists_put_of_held {txs : Set Transaction} {tx old : Transaction} (held : old ∈ txs)
    (same : old.nonce = tx.nonce) :
    (∃ x ∈ Shape.put txs tx, x.nonce = n) ↔ ∃ x ∈ txs, x.nonce = n := by
  rw [exists_put]
  exact or_iff_right_of_imp fun hn => ⟨old, held, same.trans hn⟩

end Account

/-- What a move can do to one account, given which transactions can be executed and which may be
accepted. -/
inductive Turn (ok new : Transaction → Prop) (c : Account) : Account → Prop
  | cut (n : ℕ) (queue : Set Transaction)
      (queued : ∀ x ∈ queue, x ∈ c.queue ∨ x ∈ c.pending ∧ n < x.nonce) :
      Turn ok new c ⟨{ x | x ∈ c.pending ∧ x.nonce < n }, queue, min c.nonce n⟩
  | discard (queue : Set Transaction) (queued : ∀ x ∈ queue, x ∈ c.queue) :
      Turn ok new c ⟨c.pending, queue, c.nonce⟩
  | promote (first len : ℕ) (out queue : Set Transaction) (pos : 0 < len)
      (run : ∀ n, (∃ x ∈ out, x.nonce = n) ↔ first ≤ n ∧ n < first + len)
      (ready : ∀ x ∈ out, x ∈ c.queue ∧ ok x) (start : first ≤ c.nonce)
      (queued : ∀ x ∈ queue, x ∈ c.queue)
      (apart : ∀ x ∈ c.pending, ∀ y ∈ c.queue, x.nonce ≠ y.nonce) :
      Turn ok new c ⟨c.pending ∪ out, queue, first + len⟩
  | accept (tx : Transaction) (allowed : new tx) (executable : ok tx) :
      Turn ok new c ⟨c.pending, Shape.put c.queue tx, c.nonce⟩
  | replace (tx old : Transaction) (executable : ok tx) (held : old ∈ c.pending)
      (same : old.nonce = tx.nonce) : Turn ok new c ⟨Shape.put c.pending tx, c.queue, c.nonce⟩

/-! ## The invariants -/

section Turns

-- `s` is the nonce in the state: a transaction below it cannot be executed.
variable {s : ℕ} {ok new : Transaction → Prop} {c c' : Account}

/-- The pending nonces have no gap from the nonce in the state on, and those below the next one can
be executed. -/
structure Aligned (s : ℕ) (ok : Transaction → Prop) (c : Account) : Prop where
  interval : ∃ m, ∀ n, s ≤ n → (c.Has n ↔ n < m)
  claimed : ∀ n, s ≤ n → n < c.nonce → ∃ x ∈ c.pending, x.nonce = n ∧ ok x

/-- The pending nonces reach from the nonce in the state to the next one. -/
structure Steady (s : ℕ) (ok : Transaction → Prop) (c : Account) : Prop extends Aligned s ok c where
  low : ∀ x ∈ c.pending, s ≤ x.nonce ∧ x.nonce < c.nonce

/-- Steady, and the queue is not below the state. -/
structure Settled (s : ℕ) (ok : Transaction → Prop) (c : Account) : Prop extends Steady s ok c where
  fresh : ∀ x ∈ c.queue, s ≤ x.nonce

/-- The transaction to execute next is missing, and none that waits can be promoted before it comes.
-/
structure Blocked (s : ℕ) (c : Account) : Prop where
  missing : ¬c.Has s
  waits : ¬c.Queues s
  behind : c.nonce ≤ s

theorem Aligned.first_eq (h : Aligned s ok c) {x : Transaction} (old : s ≤ x.nonce)
    (free : ¬c.Has x.nonce) (start : x.nonce ≤ c.nonce) : x.nonce = c.nonce := by
  refine le_antisymm start (not_lt.1 fun before => free ?_)
  obtain ⟨y, hy, same, -⟩ := h.claimed x.nonce old before
  exact ⟨y, hy, same⟩

theorem Aligned.has_iff (h : Aligned s ok c) (old : s ≤ c.nonce) (free : ¬c.Has c.nonce)
    (hn : s ≤ n) : c.Has n ↔ n < c.nonce := by
  obtain ⟨m, hm⟩ := h.interval
  constructor
  · intro has
    have above : m ≤ c.nonce := not_lt.1 fun hlt => free ((hm _ old).2 hlt)
    exact ((hm n hn).1 has).trans_le above
  · intro before
    obtain ⟨x, hx, same, -⟩ := h.claimed n hn before
    exact ⟨x, hx, same⟩

theorem Steady.has_iff (h : Steady s ok c) (n : ℕ) : c.Has n ↔ s ≤ n ∧ n < c.nonce := by
  constructor
  · rintro ⟨x, hx, rfl⟩
    exact h.low x hx
  · rintro ⟨hn, hlt⟩
    obtain ⟨x, hx, same, -⟩ := h.claimed n hn hlt
    exact ⟨x, hx, same⟩

theorem Aligned.start_eq (h : Aligned s ok c) (old : ∀ x, ok x → s ≤ x.nonce) {len : ℕ}
    {out : Set Transaction} (pos : 0 < len)
    (run : ∀ n, (∃ x ∈ out, x.nonce = n) ↔ first ≤ n ∧ n < first + len)
    (ready : ∀ x ∈ out, x ∈ c.queue ∧ ok x) (start : first ≤ c.nonce)
    (apart : ∀ x ∈ c.pending, ∀ y ∈ c.queue, x.nonce ≠ y.nonce) :
    first = c.nonce ∧ s ≤ c.nonce ∧ ¬c.Has c.nonce := by
  obtain ⟨x, hx, rfl⟩ := (run first).2 ⟨le_rfl, Nat.lt_add_of_pos_right pos⟩
  obtain ⟨queued, executable⟩ := ready x hx
  have free : ¬c.Has x.nonce := fun ⟨y, hy, same⟩ => apart y hy x queued same
  have first_eq := h.first_eq (old x executable) free start
  exact ⟨first_eq, first_eq ▸ old x executable, first_eq ▸ free⟩

theorem Aligned.turn (h : Aligned s ok c) (old : ∀ x, ok x → s ≤ x.nonce)
    (turn : Turn ok new c c') : Aligned s ok c' := by
  cases turn with
  | cut k queue queued =>
    obtain ⟨m, hm⟩ := h.interval
    refine ⟨⟨min m k, fun n hn => ⟨?_, fun hlt => ?_⟩⟩, fun n hn hlt => ?_⟩
    · rintro ⟨x, ⟨hx, before⟩, rfl⟩
      exact lt_min ((hm _ hn).1 ⟨x, hx, rfl⟩) before
    · obtain ⟨hlt, before⟩ := lt_min_iff.1 hlt
      obtain ⟨x, hx, rfl⟩ := (hm n hn).2 hlt
      exact ⟨x, ⟨hx, before⟩, rfl⟩
    · obtain ⟨hlt, before⟩ := lt_min_iff.1 hlt
      obtain ⟨x, hx, rfl, executable⟩ := h.claimed n hn hlt
      exact ⟨x, ⟨hx, before⟩, rfl, executable⟩
  | discard queue queued => exact ⟨h.interval, h.claimed⟩
  | promote first len out queue pos run ready start queued apart =>
    obtain ⟨rfl, hs, free⟩ := h.start_eq old pos run ready start apart
    refine ⟨⟨c.nonce + len, fun n hn => ⟨?_, fun hlt => ?_⟩⟩, fun n hn hlt => ?_⟩
    · rintro ⟨x, hx | hx, rfl⟩
      · have before := (h.has_iff hs free hn).1 ⟨x, hx, rfl⟩
        omega
      · exact ((run x.nonce).1 ⟨x, hx, rfl⟩).2
    · rcases lt_or_ge n c.nonce with before | after
      · obtain ⟨x, hx, hxn⟩ := (h.has_iff hs free hn).2 before
        exact ⟨x, .inl hx, hxn⟩
      · obtain ⟨x, hx, hxn⟩ := (run n).2 ⟨after, hlt⟩
        exact ⟨x, .inr hx, hxn⟩
    · rcases lt_or_ge n c.nonce with before | after
      · obtain ⟨x, hx, hxn⟩ := h.claimed n hn before
        exact ⟨x, .inl hx, hxn⟩
      · obtain ⟨x, hx, hxn⟩ := (run n).2 ⟨after, hlt⟩
        exact ⟨x, .inr hx, hxn, (ready x hx).2⟩
  | accept tx allowed executable => exact ⟨h.interval, h.claimed⟩
  | replace tx prior executable held same =>
    obtain ⟨m, hm⟩ := h.interval
    refine ⟨⟨m, fun n hn => (Account.exists_put_of_held held same).trans (hm n hn)⟩, fun n hn hlt => ?_⟩
    by_cases here : tx.nonce = n
    · exact ⟨tx, .inl rfl, here, executable⟩
    · obtain ⟨x, hx, rfl, fine⟩ := h.claimed n hn hlt
      exact ⟨x, .inr ⟨hx, Ne.symm here⟩, rfl, fine⟩

theorem Steady.turn (h : Steady s ok c) (old : ∀ x, ok x → s ≤ x.nonce)
    (turn : Turn ok new c c') : Steady s ok c' := by
  refine ⟨h.toAligned.turn old turn, ?_⟩
  cases turn with
  | cut k queue queued => exact fun x hx => ⟨(h.low x hx.1).1, lt_min (h.low x hx.1).2 hx.2⟩
  | discard queue queued => exact h.low
  | promote first len out queue pos run ready start queued apart =>
    obtain ⟨rfl, -, -⟩ := h.toAligned.start_eq old pos run ready start apart
    rintro x (hx | hx)
    · exact ⟨(h.low x hx).1, Nat.lt_add_right len (h.low x hx).2⟩
    · exact ⟨old x (ready x hx).2, ((run x.nonce).1 ⟨x, hx, rfl⟩).2⟩
  | accept tx allowed executable => exact h.low
  | replace tx prior executable held same =>
    rintro x (rfl | ⟨hx, -⟩)
    · rw [← same]
      exact h.low prior held
    · exact h.low x hx

theorem Settled.turn (h : Settled s ok c) (old : ∀ x, ok x → s ≤ x.nonce)
    (turn : Turn ok new c c') : Settled s ok c' := by
  refine ⟨h.toSteady.turn old turn, ?_⟩
  cases turn with
  | cut k queue queued => exact fun x hx => (queued x hx).elim (h.fresh x) fun hx => (h.low x hx.1).1
  | discard queue queued => exact fun x hx => h.fresh x (queued x hx)
  | promote first len out queue pos run ready start queued apart =>
    exact fun x hx => h.fresh x (queued x hx)
  | accept tx allowed executable =>
    rintro x (rfl | ⟨hx, -⟩)
    · exact old x executable
    · exact h.fresh x hx
  | replace tx prior executable held same => exact h.fresh

theorem Blocked.turn (h : Blocked s c) (old : ∀ x, ok x → s ≤ x.nonce)
    (absent : ∀ tx, new tx → tx.nonce ≠ s) (turn : Turn ok new c c') : Blocked s c' := by
  cases turn with
  | cut k queue queued =>
    refine ⟨fun ⟨x, hx, hn⟩ => h.missing ⟨x, hx.1, hn⟩, fun ⟨x, hx, hn⟩ => ?_,
      (min_le_left _ _).trans h.behind⟩
    rcases queued x hx with hx | ⟨hx, -⟩
    · exact h.waits ⟨x, hx, hn⟩
    · exact h.missing ⟨x, hx, hn⟩
  | discard queue queued => exact ⟨h.missing, fun ⟨x, hx, hn⟩ => h.waits ⟨x, queued x hx, hn⟩, h.behind⟩
  | promote first len out queue pos run ready start queued apart =>
    -- The first one would have the missing nonce.
    obtain ⟨x, hx, rfl⟩ := (run first).2 ⟨le_rfl, Nat.lt_add_of_pos_right pos⟩
    obtain ⟨hin, executable⟩ := ready x hx
    exact absurd ⟨x, hin, le_antisymm (start.trans h.behind) (old x executable)⟩ h.waits
  | accept tx allowed executable =>
    refine ⟨h.missing, fun waits => ?_, h.behind⟩
    exact (Account.exists_put.1 waits).elim (absent tx allowed) h.waits
  | replace tx prior executable held same =>
    exact ⟨fun has => h.missing ((Account.exists_put_of_held held same).1 has), h.waits, h.behind⟩

end Turns

/-! ## Paths -/

/-- The nonce has a successor. -/
def Small (tx : Transaction) : Prop := tx.nonce + 1 < 2 ^ 64

theorem nonceAfter_of_run {nonces : Address → ℕ}
    (run : (out.map fun x => x.nonce) = List.range' first out.length) (nonempty : out ≠ [])
    (small : ∀ x ∈ out, Small x) : TxPool.nonceAfter nonces a out a = first + out.length := by
  have pos : 0 < out.length := length_pos_iff.2 nonempty
  have last : (out.getLast?.map fun x => x.nonce) = some (first + out.length - 1) := by
    rw [← getLast?_map, run, getLast?_range', if_neg pos.ne']
  obtain ⟨x, hx, hn⟩ := map_eq_some_iff.1 last
  have small : x.nonce + 1 < 2 ^ 64 := small x (mem_of_getLast? hx)
  unfold TxPool.nonceAfter
  rw [hx, map_some, getD_some, update_self, Nat.mod_eq_of_lt small]
  omega

theorem exists_mem_of_run (run : (out.map fun x => x.nonce) = List.range' first out.length) :
    (∃ x ∈ out, x.nonce = n) ↔ first ≤ n ∧ n < first + out.length := by
  rw [← List.mem_range'_1, ← run, List.mem_map]

theorem Shape.Ready.account {out : List Transaction}
    {queue : Set Transaction} (ready : σ.Ready a out) (small : ∀ x ∈ σ.queue a, Small x)
    (nonempty : out ≠ []) :
    ∃ first, (out.map fun x => x.nonce) = List.range' first out.length ∧ first ≤ σ.nonces a ∧
      (∀ x ∈ σ.queue a, σ.Executable a x → x ∈ out ∨ first + out.length < x.nonce) ∧
      (σ.promote env a out queue).account a =
        ⟨σ.pending a ∪ { x | x ∈ out }, queue, first + out.length⟩ := by
  obtain ⟨first, run, start, after⟩ := ready.run nonempty
  have nonce := @nonceAfter_of_run out first a σ.nonces run nonempty
    fun x hx => small x (ready.queued x hx).1
  refine ⟨first, run, start, after, ?_⟩
  unfold Shape.account Shape.promote Shape.setQueue Shape.setPending
  dsimp only
  rw [nonce, update_self, update_self]

theorem Shape.account_promote_of_ne {b : Address}
    {queue : Set Transaction} (hab : a ≠ b) : (σ.promote env b out queue).account a = σ.account a := by
  unfold Shape.account Shape.promote Shape.setQueue Shape.setPending TxPool.nonceAfter
  dsimp only
  rw [update_of_ne hab, update_of_ne hab]
  cases out.getLast? with
  | none => rfl
  | some last => rw [map_some, getD_some, update_of_ne hab]

theorem Move.turn {new : Transaction → Prop} {isLocal : Bool} {σ' : Shape}
    (h : Move env new isLocal σ σ') (a : Address) (small : ∀ x ∈ σ.queue a, Small x) :
    σ'.account a = σ.account a ∨
      Turn (σ.Executable a) (fun tx => new tx ∧ tx.sender = some a) (σ.account a) (σ'.account a) := by
  cases h with
  | cut b n queue queued =>
    unfold Shape.account Shape.cut Shape.setQueue Shape.setPending
    dsimp only
    by_cases hab : a = b
    · subst hab
      rw [update_self, update_self, update_self]
      exact .inr (.cut n queue queued)
    · rw [update_of_ne hab, update_of_ne hab, update_of_ne hab]
      exact .inl rfl
  | discard b queue queued =>
    unfold Shape.account Shape.setQueue
    dsimp only
    by_cases hab : a = b
    · subst hab
      rw [update_self]
      exact .inr (.discard queue queued)
    · rw [update_of_ne hab]
      exact .inl rfl
  | promote b out queue ready queued apart =>
    by_cases hab : a = b
    · subst hab
      right
      by_cases nonempty : out = []
      · subst nonempty
        have same : (σ.promote env a [] queue).account a = ⟨σ.pending a, queue, σ.nonces a⟩ := by
          simp [Shape.account, Shape.promote, Shape.setQueue, Shape.setPending, TxPool.nonceAfter]
        rw [same]
        exact .discard queue fun x hx => (queued x hx).1
      · obtain ⟨first, run, start, -, heq⟩ := @Shape.Ready.account env _ _ _ queue ready small nonempty
        rw [heq]
        exact .promote first out.length { x | x ∈ out } queue (length_pos_iff.2 nonempty)
          (fun n => exists_mem_of_run run) ready.queued start (fun x hx => (queued x hx).1) apart
    · exact .inl (Shape.account_promote_of_ne hab)
  | accept b tx sender allowed executable free =>
    unfold Shape.account Shape.setQueue
    dsimp only
    by_cases hab : a = b
    · subst hab
      rw [update_self]
      exact .inr (.accept tx ⟨allowed, sender⟩ executable)
    · rw [update_of_ne hab]
      exact .inl rfl
  | replace b tx old sender allowed executable held same =>
    unfold Shape.account Shape.setPending
    dsimp only
    by_cases hab : a = b
    · subst hab
      rw [update_self]
      exact .inr (.replace tx old executable held same)
    · rw [update_of_ne hab]
      exact .inl rfl
  | whitelist b here => exact .inl rfl

/-- All transactions are small. -/
def AllSmall (σ : Shape) : Prop := TxPool.Stocked Small (fun _ => True) σ

/-- `P` holds of the account. -/
def Shape.At (σ : Shape) (P : ℕ → (Transaction → Prop) → Account → Prop) (a : Address) : Prop :=
  P (σ.stateNonce a) (σ.Executable a) (σ.account a)

theorem Shape.At.path {env : Env} {new : Transaction → Prop} {isLocal : Bool} {σ σ' : Shape}
    {P : ℕ → (Transaction → Prop) → Account → Prop} {a : Address} (h : σ.At P a)
    (path : ReflTransGen (Move env new isLocal) σ σ') (small : AllSmall σ)
    (allowed : ∀ tx, new tx → Small tx)
    (keeps : ∀ {ok : Transaction → Prop} {c c' : Account}, P (σ.stateNonce a) ok c →
      (∀ x, ok x → σ.stateNonce a ≤ x.nonce) →
      Turn ok (fun tx => new tx ∧ tx.sender = some a) c c' → P (σ.stateNonce a) ok c') :
    σ'.At P a := by
  have along : AllSmall σ' ∧ σ'.stateNonce a = σ.stateNonce a ∧ σ'.At P a := by
    induction path with
    | refl => exact ⟨small, rfl, h⟩
    | @tail τ τ' before move ih =>
      obtain ⟨small, nonce, here⟩ := ih
      have same : τ'.stateNonce a = σ.stateNonce a ∧ τ'.Executable a = τ.Executable a := by
        unfold Shape.Executable
        rw [← nonce]
        unfold Shape.stateNonce
        rw [move.head.1, move.head.2]
        exact ⟨rfl, rfl⟩
      refine ⟨small.move (fun _ _ _ _ => trivial) move allowed, same.1, ?_⟩
      unfold Shape.At at here ⊢
      rw [nonce] at here
      rw [same.1, same.2]
      rcases move.turn a (small.queue a) with still | turn
      · rw [still]
        exact here
      · exact keeps here (fun x hx => nonce ▸ hx.1) turn
  exact along.2.2

end JuChain.Pool
