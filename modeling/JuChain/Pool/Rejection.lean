import JuChain.Pool.Demotion

/-!
# Rejected transactions

A transaction that `add` rejects leaves the pool as it was, unless the pool was full and room was
made for it before it turned out that it does not pay enough more than the one with its nonce
(`MakesRoom`).
-/

namespace JuChain.Pool

open List Option Heap

namespace TxPricedList

variable {all : TxIndex} {isLocal : Transaction → Bool} {count : ℤ}

/-! ## The live entries of the heap -/

/-- The items that are still in `all`. -/
def liveItems (all : TxIndex) (items : List Transaction) : List Transaction :=
  items.filter (live all)

theorem liveItems_perm {xs ys : List Transaction} (h : xs.Perm ys) :
    (liveItems all xs).Perm (liveItems all ys) := h.filter _

variable {x : Transaction}

theorem liveItems_of_pop_stale {items rest : List Transaction}
    (h : pop priceLess items = some (x, rest))
    (stale : live all x = false) : (liveItems all rest).Perm (liveItems all items) := by
  have popped := @liveItems_perm all _ _ (pop_perm h)
  unfold liveItems at popped ⊢
  rwa [filter_cons_of_neg (by rw [stale]; exact Bool.false_ne_true)] at popped

theorem liveItems_dropStale (fuel : ℕ) (l : TxPricedList) :
    (liveItems all (dropStale all fuel l).items).Perm (liveItems all l.items) := by
  induction fuel generalizing l with
  | zero => exact Perm.refl _
  | succ fuel ih =>
    unfold dropStale
    split_ifs with stale
    · refine (ih _).trans ?_
      cases hpop : pop priceLess l.items with
      | none =>
        rw [pop_eq_none_iff.1 hpop]
        exact Perm.refl _
      | some popped =>
        rw [head?_of_pop hpop] at stale
        refine liveItems_of_pop_stale hpop ?_
        rwa [any_some, Bool.not_eq_true'] at stale
    · exact Perm.refl _

/-- The live entries that are left while some are taken out, dropped ones included. -/
def Taking.content (all : TxIndex) (t : Taking) : List Transaction :=
  t.drop ++ liveItems all (t.save ++ t.items)

theorem discardLoop_perm (fuel : ℕ) (count : ℤ) (t : Taking) :
    ((discardLoop all isLocal fuel count t).content all).Perm (t.content all) := by
  induction fuel generalizing count t with
  | zero => exact Perm.refl _
  | succ fuel ih =>
    unfold discardLoop
    split_ifs with done
    · exact Perm.refl _
    cases hpop : pop priceLess t.items with
    | none => exact Perm.refl _
    | some popped =>
      obtain ⟨x, rest⟩ := popped
      have perm := pop_perm hpop
      dsimp only
      split_ifs with stale islocal
      · rw [Bool.not_eq_true'] at stale
        refine (ih count _).trans (Perm.append_left _ ?_)
        show (filter (live all) (t.save ++ rest)).Perm (filter (live all) (t.save ++ t.items))
        rw [filter_append, filter_append]
        exact (liveItems_of_pop_stale hpop stale).append_left _
      · refine (ih count _).trans (Perm.append_left _ (liveItems_perm ?_))
        rw [append_assoc]
        exact perm.append_left _
      · refine (ih (count - 1) _).trans ?_
        have moved : (x :: liveItems all (t.save ++ rest)).Perm
            (liveItems all (t.save ++ t.items)) := by
          have front : (x :: (t.save ++ rest)).Perm (t.save ++ t.items) :=
            perm_middle.symm.trans (perm.append_left _)
          have kept := @liveItems_perm all _ _ front
          rwa [liveItems, filter_cons_of_pos (by simpa using stale)] at kept
        show ((t.drop ++ [x]) ++ liveItems all (t.save ++ rest)).Perm _
        rw [append_assoc]
        exact moved.append_left _

theorem foldl_push_perm (xs items : List Transaction) :
    (xs.foldl (push priceLess) items).Perm (xs ++ items) := by
  induction xs generalizing items with
  | nil => exact Perm.refl _
  | cons x xs ih =>
    refine (ih _).trans (((push_perm items x).append_left xs).trans ?_)
    exact perm_middle

theorem discard_perm (l : TxPricedList) (count : ℤ) :
    ((l.discard all isLocal count).2 ++ liveItems all (l.discard all isLocal count).1.items).Perm
      (liveItems all l.items) :=
  ((liveItems_perm (foldl_push_perm _ _)).append_left _).trans
    (discardLoop_perm l.items.length count ⟨l.items, l.stales, [], []⟩)

theorem drop_subset_discardLoop (fuel : ℕ) (count : ℤ) (t : Taking) :
    t.drop ⊆ (discardLoop all isLocal fuel count t).drop := by
  induction fuel generalizing count t with
  | zero => exact Subset.refl _
  | succ fuel ih =>
    unfold discardLoop
    split_ifs with done
    · exact Subset.refl _
    cases pop priceLess t.items with
    | none => exact Subset.refl _
    | some popped =>
      dsimp only
      split_ifs
      · exact fun y hy => ih count _ hy
      · exact fun y hy => ih count _ hy
      · exact fun y hy => ih (count - 1) _ (mem_append_left _ hy)

theorem remote_of_mem_discardLoop {fuel : ℕ} {t : Taking}
    (hx : x ∈ (discardLoop all isLocal fuel count t).drop) : x ∈ t.drop ∨ isLocal x = false := by
  induction fuel generalizing count t with
  | zero => exact .inl hx
  | succ fuel ih =>
    unfold discardLoop at hx
    split_ifs at hx with done
    · exact .inl hx
    cases hpop : pop priceLess t.items with
    | none =>
      rw [hpop] at hx
      exact .inl hx
    | some popped =>
      rw [hpop] at hx
      dsimp only at hx
      split_ifs at hx with stale islocal
      · have before := ih hx
        exact before
      · have before := ih hx
        exact before
      · rcases ih hx with hdrop | remote
        · rcases mem_append.1 hdrop with hdrop | hdrop
          · exact .inl hdrop
          · rw [mem_singleton.1 hdrop]
            exact .inr (Bool.not_eq_true _ ▸ islocal)
        · exact .inr remote

theorem mem_discard {l : TxPricedList} (hx : x ∈ (l.discard all isLocal count).2) :
    x ∈ l.items ∧ live all x = true ∧ isLocal x = false := by
  obtain ⟨held, hlive⟩ := mem_filter.1 ((discard_perm l count).subset (mem_append_left _ hx))
  exact ⟨held, hlive, (remote_of_mem_discardLoop hx).resolve_left not_mem_nil⟩

theorem exists_mem_discardLoop {fuel : ℕ} {t : Taking} (room : t.items.length ≤ fuel)
    (some_left : 0 < count) {y : Transaction} (hy : y ∈ t.items) (hlive : live all y = true)
    (remote : isLocal y = false) : ∃ x, x ∈ (discardLoop all isLocal fuel count t).drop := by
  induction fuel generalizing t with
  | zero =>
    rw [eq_nil_of_length_eq_zero (Nat.le_zero.1 room)] at hy
    exact nomatch hy
  | succ fuel ih =>
    unfold discardLoop
    rw [if_neg some_left.not_ge]
    cases hpop : pop priceLess t.items with
    | none =>
      rw [pop_eq_none_iff.1 hpop] at hy
      exact nomatch hy
    | some popped =>
      obtain ⟨x, rest⟩ := popped
      have perm := pop_perm hpop
      have room' : rest.length ≤ fuel := by
        have := perm.length_eq
        rw [length_cons] at this
        omega
      have later (hne : y ≠ x) : y ∈ rest := (mem_cons.1 (perm.mem_iff.2 hy)).resolve_left hne
      dsimp only
      split_ifs with stale islocal
      · refine ih room' (later ?_)
        rintro rfl
        rw [hlive] at stale
        exact nomatch stale
      · refine ih room' (later ?_)
        rintro rfl
        exact Bool.false_ne_true (remote.symm.trans islocal)
      · exact ⟨x, drop_subset_discardLoop _ _ _ (mem_append_right _ (mem_singleton_self x))⟩

end TxPricedList

namespace TxPool

variable {env : Env} {isLocal : Bool} {p q : TxPool} {tx : Transaction}

/-! ## Making room -/

/-- What a rejected transaction must leave alone. -/
structure Unchanged (p p' : TxPool) : Prop where
  pending : p'.pending = p.pending
  queue : p'.queue = p.queue
  all : p'.all = p.all
  heap : (TxPricedList.liveItems p'.all p'.priced.items).Perm
    (TxPricedList.liveItems p.all p.priced.items)
  locals : p'.locals = p.locals
  pendingState : p'.pendingNonce = p.pendingNonce

/-- The pool is full, and a transaction of an account that is not local is discarded for a new valid
one. -/
def MakesRoom (env : Env) (p : TxPool) (tx : Transaction) (isLocal : Bool) : Prop :=
  p.all.lookup tx.hash = none ∧ p.validateTx tx isLocal = .ok () ∧ p.full env = true ∧
    (p.underpriced tx isLocal).2 = false ∧
    ∃ y ∈ p.priced.items, TxPricedList.live p.all y = true ∧ p.isLocalTx y = false

theorem toInt_toInt64_le (x : UInt64) : x.toInt64.toInt ≤ x.toNat := by
  show x.toBitVec.toInt ≤ x.toBitVec.toNat
  rw [BitVec.toInt_eq_toNat_cond]
  split_ifs <;> omega

theorem surplus_pos (full : p.full env = true) : 0 < p.surplus env := by
  have many : (limit env).toNat ≤ p.all.entries.length := of_decide_eq_true full
  unfold surplus
  by_cases zero : limit env = 0
  · have wrapped : (limit env - 1).toInt64.toInt = -1 := by
      rw [zero]
      decide
    omega
  · have pos : 0 < (limit env).toNat := by
      rw [Nat.pos_iff_ne_zero]
      exact fun h => zero (UInt64.toNat_inj.1 h)
    have below := toInt_toInt64_le (limit env - 1)
    have pred : (limit env - 1).toNat = (limit env).toNat - 1 :=
      UInt64.toNat_sub_of_le _ _ (UInt64.le_iff_toNat_le.2 pos)
    omega

theorem liveItems_underpriced (p : TxPool) (tx : Transaction) (isLocal : Bool) :
    ∃ priced, (p.underpriced tx isLocal).1 = { p with priced := priced } ∧
      (TxPricedList.liveItems p.all priced.items).Perm
        (TxPricedList.liveItems p.all p.priced.items) := by
  unfold underpriced
  split_ifs
  · exact ⟨p.priced, rfl, Perm.refl _⟩
  · refine ⟨_, rfl, ?_⟩
    unfold TxPricedList.underpriced
    split_ifs
    · exact Perm.refl _
    · exact TxPricedList.liveItems_dropStale _ _

theorem eq_of_insert_error {e : AddError} (h : p.insert env tx isLocal = (q, .error e)) : q = p := by
  unfold TxPool.insert at h
  dsimp only at h
  cases hfilter : (p.pending.lookup (tx.sender.getD 0)).filter (·.overlaps tx) with
  | some list =>
    rw [hfilter] at h
    dsimp only at h
    unfold replacePending at h
    cases hadd : list.add tx env.config.priceBump with
    | none =>
      rw [hadd] at h
      exact (Prod.mk.inj h).1.symm
    | some added =>
      rw [hadd] at h
      exact nomatch (Prod.mk.inj h).2
  | none =>
    rw [hfilter] at h
    cases hadd : (listOr p.queue false (tx.sender.getD 0)).add tx env.config.priceBump with
    | none =>
      rw [enqueueTx_of_reject hadd] at h
      exact (Prod.mk.inj h).1.symm
    | some added =>
      rw [@enqueueTx_of_add env p tx added.1 added.2 hadd] at h
      exact nomatch (Prod.mk.inj h).2

theorem unchanged_makeRoom_iff (h : p.Sound []) (full : p.full env = true) :
    Unchanged p (p.makeRoom env) ↔
      ¬∃ y ∈ p.priced.items, TxPricedList.live p.all y = true ∧ p.isLocalTx y = false := by
  constructor
  · rintro same ⟨y, hy, hlive, remote⟩
    obtain ⟨x, hx⟩ : ∃ x, x ∈ victims env p :=
      TxPricedList.exists_mem_discardLoop le_rfl (surplus_pos full) hy hlive remote
    have known : (p.all.lookup x.hash).isSome = true := (TxPricedList.mem_discard hx).2.1
    have gone := @lookup_makeRoom env p h x.hash
    rw [if_pos (mem_map_of_mem hx), same.all] at gone
    rw [gone] at known
    exact nomatch known
  · intro none_left
    have none_out : victims env p = [] := by
      refine eq_nil_iff_forall_not_mem.2 fun x hx => none_left ?_
      exact ⟨x, TxPricedList.mem_discard hx⟩
    have cleared : p.makeRoom env =
        { p with priced := (p.priced.discard p.all p.isLocalTx (p.surplus env)).1 } := by
      unfold makeRoom
      dsimp only
      rw [show (p.priced.discard p.all p.isLocalTx (p.surplus env)).2 = [] from none_out]
      rfl
    have perm := @TxPricedList.discard_perm p.all p.isLocalTx p.priced (p.surplus env)
    rw [show (p.priced.discard p.all p.isLocalTx (p.surplus env)).2 = [] from none_out] at perm
    rw [cleared]
    exact ⟨rfl, rfl, rfl, perm, rfl, rfl⟩

/-- A rejected transaction leaves a pool as it was, unless room was made for it. -/
theorem rejected_unchanged_iff {gasPrice : ℤ} {state : State.StateDB} {maxGas : UInt64} {ops : List Op}
    (reached : Runs.run (step env) (TxPool.new gasPrice state maxGas) ops = some p)
    {e : AddError} (rejected : (p.add env tx isLocal).2 = .error e) :
    Unchanged p (p.add env tx isLocal).1 ↔ ¬MakesRoom env p tx isLocal := by
  have sound := sound_run reached
  have refl : Unchanged p p := ⟨rfl, rfl, rfl, Perm.refl _, rfl, rfl⟩
  unfold add at rejected ⊢
  split_ifs at rejected ⊢ with known full
  · exact iff_of_true refl fun room => by
      rw [room.1] at known
      exact nomatch known
  · cases hvalid : p.validateTx tx isLocal with
    | error e' => exact iff_of_true refl fun room => nomatch hvalid.symm.trans room.2.1
    | ok u =>
      rw [hvalid] at rejected
      obtain ⟨priced, hpriced, live⟩ := liveItems_underpriced p tx isLocal
      obtain ⟨q, under, hq⟩ : ∃ q under, p.underpriced tx isLocal = (q, under) := ⟨_, _, rfl⟩
      rw [hq] at rejected hpriced ⊢
      obtain rfl : q = { p with priced := priced } := hpriced
      cases under with
      | true =>
        refine iff_of_true ⟨rfl, rfl, rfl, live, rfl, rfl⟩ fun room => ?_
        have paid := room.2.2.2.1
        rw [hq] at paid
        exact nomatch paid
      | false =>
        have left : (TxPool.insert env (makeRoom env { p with priced := priced }) tx isLocal).1 =
            makeRoom env { p with priced := priced } :=
          eq_of_insert_error (e := e) (Prod.ext rfl rejected)
        rw [left]
        -- The stale entries that were taken from the heap make no difference.
        have sound₁ : Sound { p with priced := priced } [] := sound.congr rfl rfl rfl
        have same_heap : Unchanged p (makeRoom env { p with priced := priced }) ↔
            Unchanged { p with priced := priced } (makeRoom env { p with priced := priced }) :=
          ⟨fun h => { h with heap := h.heap.trans live.symm },
            fun h => { h with heap := h.heap.trans live }⟩
        rw [same_heap, unchanged_makeRoom_iff sound₁ full, not_iff_not]
        constructor
        · rintro ⟨y, hy, hlive, remote⟩
          have hin := mem_filter.1 (live.subset (mem_filter.2 ⟨hy, hlive⟩))
          exact ⟨not_isSome_iff_eq_none.1 known, hvalid, full, by rw [hq], y, hin.1, hlive, remote⟩
        · rintro ⟨-, -, -, -, y, hy, hlive, remote⟩
          have hin := mem_filter.1 (live.symm.subset (mem_filter.2 ⟨hy, hlive⟩))
          exact ⟨y, hin.1, hlive, remote⟩
  · cases hvalid : p.validateTx tx isLocal with
    | error e' => exact iff_of_true refl fun room => nomatch hvalid.symm.trans room.2.1
    | ok u =>
      rw [hvalid] at rejected
      have left : (TxPool.insert env p tx isLocal).1 = p :=
        eq_of_insert_error (e := e) (Prod.ext rfl rejected)
      rw [left]
      exact iff_of_true refl fun room => full room.2.2.1

/-- Two transactions for a pool with one slot. -/
def fullRun : List Op := [.addRemote (sampleTx 1 1 0 10), .addRemote (sampleTx 2 2 0 2)]

theorem known_rejected_unchanged :
    ∃ p, Runs.run (step (sampleEnv 1 1 fun _ => false)) (samplePool 0) fullRun = some p ∧
      Unchanged p (p.add (sampleEnv 1 1 fun _ => false) (sampleTx 1 1 0 10) false).1 := by
  have ran : (Runs.run (step (sampleEnv 1 1 fun _ => false)) (samplePool 0) fullRun).map (fun p =>
      ((p.add (sampleEnv 1 1 fun _ => false) (sampleTx 1 1 0 10) false).2, (p.all.lookup 1).isSome)) =
      some (.error (.known 1), true) := by decide +kernel
  obtain ⟨p, hp, hres⟩ := map_eq_some_iff.1 ran
  obtain ⟨rejected, known⟩ := Prod.mk.inj hres
  refine ⟨p, hp, (rejected_unchanged_iff hp rejected).2 fun room => ?_⟩
  have unknown : p.all.lookup 1 = none := room.1
  rw [unknown] at known
  exact nomatch known

/-- The new transaction pays as much as the one it should replace: it is rejected, and another one
is gone. -/
theorem rejected_transaction_evicts :
    ∃ p, Runs.run (step (sampleEnv 1 1 fun _ => false)) (samplePool 0) fullRun = some p ∧
      (p.add (sampleEnv 1 1 fun _ => false) (sampleTx 3 1 0 10) false).2 = .error .replaceUnderpriced ∧
      ¬Unchanged p (p.add (sampleEnv 1 1 fun _ => false) (sampleTx 3 1 0 10) false).1 := by
  have ran : (Runs.run (step (sampleEnv 1 1 fun _ => false)) (samplePool 0) fullRun).map (fun p =>
      ((p.add (sampleEnv 1 1 fun _ => false) (sampleTx 3 1 0 10) false).2, (p.all.lookup 2).isSome,
        ((p.add (sampleEnv 1 1 fun _ => false) (sampleTx 3 1 0 10) false).1.all.lookup 2).isSome)) =
      some (.error .replaceUnderpriced, true, false) := by decide +kernel
  obtain ⟨p, hp, hres⟩ := map_eq_some_iff.1 ran
  obtain ⟨rejected, hres⟩ := Prod.mk.inj hres
  obtain ⟨before, after⟩ := Prod.mk.inj hres
  refine ⟨p, hp, rejected, fun same => ?_⟩
  rw [same.all, before] at after
  exact nomatch after

end TxPool

end JuChain.Pool
