import JuChain.Pool.Demotion

/-!
# DApp transactions

When a transaction becomes pending, `promoteTx` files it in the list of its DApp, unless one of its
two DApp pointers is the shared one.  A plain transaction that was decoded has new pointers, so it
is filed under the zero DApp; the next block then makes `reset` look up a nonce that is not there.
-/

namespace JuChain.Pool

open State Relation List Function Option

/-- The blocks that `reset` dereferences: the new head, and the old one if the walk starts from it.
-/
structure HeadChange.Stored (ev : HeadChange) : Prop where
  new : ev.newBlock.isSome
  old : ∀ b ∈ ev.oldHead, b.hash ≠ ev.newHead.parentHash →
    ((b.number : ℤ) - ev.newHead.number).natAbs ≤ 64 → (ev.chain.getBlock b.hash b.number).isSome

theorem HeadChange.Stored.reinject_ne_panics {ev : HeadChange} (stored : ev.Stored) :
    ev.reinject ≠ .panics := by
  unfold reinject reinjection
  cases hold : ev.oldHead with
  | none => simp
  | some old =>
    simp only
    split_ifs with child deep
    · simp
    · simp
    · obtain ⟨rem, hrem⟩ := isSome_iff_exists.1 (stored.old old hold child (not_lt.1 deep))
      obtain ⟨add, hadd⟩ := isSome_iff_exists.1 stored.new
      rw [HeadChange.newBlock] at hadd
      rw [hrem, hadd]
      cases met : branches ev.chain rem add <;> simp [met]

namespace TxPool

variable {env : Env} {p p' : TxPool} {id : Address} {tx : Transaction} {txs : List Transaction}
variable {Φ : Transaction → Prop} {ev : HeadChange}

/-! ## What is in the pool -/

/-- The transactions in the pool satisfy `Φ`, and the lists of the DApps `D`. -/
structure Stocked (Φ : Transaction → Prop) (D : Lists → Prop) (σ : Shape) : Prop where
  pending : ∀ a, ∀ x ∈ σ.pending a, Φ x
  queue : ∀ a, ∀ x ∈ σ.queue a, Φ x
  dapp : D σ.dapp

theorem forall_mem_update {f : Address → Set Transaction}
    (h : ∀ a, ∀ x ∈ f a, Φ x) {a : Address} {txs : Set Transaction} (new : ∀ x ∈ txs, Φ x)
    (b : Address) : ∀ x ∈ Function.update f a txs b, Φ x := by
  by_cases hb : b = a
  · subst hb
    rw [update_self]
    exact new
  · rw [update_of_ne hb]
    exact h b

theorem stocked_new {D : Lists → Prop} (gasPrice : ℤ) (state : StateDB)
    (maxGas : UInt64) (empty : D ∅) : Stocked Φ D (TxPool.new gasPrice state maxGas).shape :=
  ⟨fun _ _ ⟨_, hl, _⟩ => (nomatch hl), fun _ _ ⟨_, hl, _⟩ => (nomatch hl), empty⟩

section Stocked

-- Filing a transaction of the right kind keeps `D`.
variable {Φ : Transaction → Prop} {D : Lists → Prop}
  (files : ∀ dapp tx, Φ tx → D dapp → D (promoteDApp env dapp tx))

include files

theorem Stocked.move {new : Transaction → Prop} {isLocal : Bool} {σ σ' : Shape} (h : Stocked Φ D σ)
    (move : Move env new isLocal σ σ') (allowed : ∀ tx, new tx → Φ tx) : Stocked Φ D σ' := by
  cases move with
  | cut a n queue queued =>
    refine ⟨forall_mem_update h.pending fun x hx => h.pending a x hx.1,
      forall_mem_update h.queue fun x hx => ?_, h.dapp⟩
    rcases queued x hx with hx | ⟨hx, -⟩
    · exact h.queue a x hx
    · exact h.pending a x hx
  | discard a queue queued =>
    exact ⟨h.pending, forall_mem_update h.queue fun x hx => h.queue a x (queued x hx), h.dapp⟩
  | promote a out queue ready queued apart =>
    have good (x : Transaction) (hx : x ∈ out) : Φ x := h.queue a x (ready.queued x hx).1
    refine ⟨forall_mem_update h.pending fun x hx => ?_,
      forall_mem_update h.queue fun x hx => h.queue a x (queued x hx).1, ?_⟩
    · exact hx.elim (h.pending a x) (good x)
    · have filed (dapp : Lists) (hdapp : D dapp) : D (out.foldl (promoteDApp env) dapp) := by
        clear ready queued apart
        induction out generalizing dapp with
        | nil => exact hdapp
        | cons x out ih =>
          exact ih (fun y hy => good y (mem_cons_of_mem x hy)) _
            (files dapp x (good x mem_cons_self) hdapp)
      exact filed σ.dapp h.dapp
  | accept a tx sender new_tx executable free =>
    refine ⟨h.pending, forall_mem_update h.queue fun x hx => ?_, h.dapp⟩
    rcases hx with rfl | ⟨hx, -⟩
    · exact allowed x new_tx
    · exact h.queue a x hx
  | replace a tx old sender new_tx executable held same =>
    refine ⟨forall_mem_update h.pending fun x hx => ?_, h.queue, h.dapp⟩
    rcases hx with rfl | ⟨hx, -⟩
    · exact allowed x new_tx
    · exact h.pending a x hx
  | whitelist a here => exact ⟨h.pending, h.queue, h.dapp⟩

section

variable (h : Stocked Φ D p.shape)
include h

theorem Stocked.leads {new : Transaction → Prop} {isLocal : Bool} (leads : Leads env new isLocal p p')
    (sound : p.Sound []) (allowed : ∀ tx, new tx → Φ tx) : Stocked Φ D p'.shape := by
  have along {σ : Shape} (path : ReflTransGen (Move env new isLocal) p.shape σ) : Stocked Φ D σ := by
    induction path with
    | refl => exact h
    | tail _ move ih => exact ih.move files move allowed
  exact along (leads sound).2

theorem Stocked.reinjected (sound : p.Sound []) {state : StateDB} {head : Block}
    (allowed : ∀ tx ∈ txs, Φ tx) :
    Stocked Φ D ((p.follow state head).addTxsLocked env txs false).shape := by
  have followed : Stocked Φ D (p.follow state head).shape := ⟨h.pending, h.queue, h.dapp⟩
  have sound' : (p.follow state head).Sound [] := sound.congr rfl rfl rfl
  exact followed.leads files (leads_addTxsLocked _ txs false) sound' allowed

theorem Stocked.settle (sound : p.Sound []) : Stocked Φ D (p.settle env).shape := by
  obtain ⟨q, heq, sound', -, dapp, pending, queue, -⟩ := @settle_spec env _ sound
  have demoted : Stocked Φ D q.shape := by
    refine ⟨fun a x hx => ?_, fun a x hx => (queue a x hx).elim (h.queue a x) (h.pending a x), ?_⟩
    · have kept : x ∈ txsOf q.pending a := hx
      rw [pending] at kept
      exact h.pending a x kept.1
    · show D q.dappPending
      rw [dapp]
      exact h.dapp
  have promoted : Leads env (fun _ => False) false _ _ := leads_promoteQueued q
  rw [heq]
  exact demoted.leads files promoted sound' fun _ no => no.elim

theorem Stocked.step {op : Op} (sound : p.Sound []) (allowed : ∀ tx, op.Enters tx → Φ tx)
    (hs : p.step env op = some p') : Stocked Φ D p'.shape := by
  rcases step_cases hs with ⟨price, isLocal, leads⟩ | ⟨ev, txs, state, rfl, hreinject, -, rfl⟩
  · have priced : Stocked Φ D (shape { p with gasPrice := price }) := ⟨h.pending, h.queue, h.dapp⟩
    exact priced.leads files leads (sound.congr rfl rfl rfl) allowed
  · have followed : (p.follow state ev.newHead).Sound [] := sound.congr rfl rfl rfl
    have back := @Stocked.reinjected env p txs Φ D files h sound state ev.newHead
      fun tx htx => allowed tx ⟨txs, hreinject, htx⟩
    exact back.settle files (leads_addTxsLocked _ txs false followed).1

end

end Stocked

/-! ## Filing -/

/-- The transaction is filed under the DApp when it becomes pending. -/
def Files (tx : Transaction) (id : Address) : Prop :=
  (∃ d, tx.dappTx = some d ∧ d.dappID.value = id) ∨
    tx.dappID ≠ .empty ∧ tx.refHashId ≠ .empty ∧ tx.dappID.value = id

/-- The list of the DApp has a transaction of the nonce. -/
def Filed (dapp : Lists) (id : Address) (nonce : ℕ) : Prop :=
  ∃ y ∈ txsOf dapp id, y.nonce = nonce

theorem mem_addDApp {dapp : Lists} {id id' : Address} {tx y : Transaction} :
    y ∈ txsOf (addDApp env dapp id tx) id' ↔
      y ∈ txsOf dapp id' ∨ id' = id ∧ y = tx ∧ ¬Filed dapp id tx.nonce := by
  have overlaps : (listOr dapp true id).overlaps tx = true ↔ Filed dapp id tx.nonce := by
    rw [TxList.overlaps_iff]
    exact exists_congr fun z => and_congr_left fun _ => mem_listOr
  unfold addDApp
  dsimp only
  split_ifs with taken
  · exact ⟨.inl, fun h => h.resolve_right fun new => new.2.2 (overlaps.1 taken)⟩
  · have free : ∀ z ∈ (listOr dapp true id).txs, z.nonce ≠ tx.nonce := fun z hz same =>
      taken (TxList.overlaps_iff.2 ⟨z, hz, same⟩)
    have added : (((dapp.lookup id).getD (newTxList true)).add tx env.config.priceBump) =
        some ((listOr dapp true id).put tx, none) := TxList.add_of_free free _
    have fresh : ¬Filed dapp id tx.nonce := fun h => taken (overlaps.2 h)
    rw [added]
    dsimp only [map_some, getD_some]
    rw [txsOf_insert]
    by_cases hid : id' = id
    · subst hid
      rw [update_self, setOf_put free]
      constructor
      · rintro (rfl | hy)
        · exact .inr ⟨rfl, rfl, fresh⟩
        · exact .inl (mem_listOr.1 hy)
      · rintro (hy | ⟨-, rfl, -⟩)
        · exact .inr (mem_listOr.2 hy)
        · exact .inl rfl
    · rw [update_of_ne hid]
      exact ⟨.inl, fun h => h.resolve_right fun new => hid new.1⟩

theorem lookup_addDApp_eq_none {dapp : Lists} {id id' : Address}
    (missing : dapp.lookup id' = none) (hne : id' ≠ id) :
    (addDApp env dapp id tx).lookup id' = none := by
  unfold addDApp
  dsimp only
  split_ifs
  · exact missing
  · rw [AList.lookup_insert_ne hne, missing]

theorem filed_promoteDApp {dapp : Lists} {nonce : ℕ} (h : Filed dapp id nonce)
    (tx : Transaction) : Filed (promoteDApp env dapp tx) id nonce := by
  have grows {dapp : Lists} (h : Filed dapp id nonce) (id' : Address) (y : Transaction) :
      Filed (addDApp env dapp id' y) id nonce := by
    obtain ⟨z, hz, hn⟩ := h
    exact ⟨z, mem_addDApp.2 (.inl hz), hn⟩
  unfold promoteDApp
  cases tx.dappTx with
  | none =>
    split_ifs
    · exact grows h _ _
    · exact h
  | some d =>
    split_ifs
    · exact grows (grows h _ _) _ _
    · exact grows h _ _

theorem lookup_promoteDApp_eq_none {dapp : Lists} (missing : dapp.lookup id = none)
    (not_filed : ¬Files tx id) : (promoteDApp env dapp tx).lookup id = none := by
  have itself {dapp : Lists} (missing : dapp.lookup id = none) :
      (if tx.dappID ≠ .empty ∧ tx.refHashId ≠ .empty then addDApp env dapp tx.dappID.value tx
        else dapp).lookup id = none := by
    split_ifs with fresh
    · exact lookup_addDApp_eq_none missing fun heq => not_filed (.inr ⟨fresh.1, fresh.2, heq.symm⟩)
    · exact missing
  unfold promoteDApp
  cases hd : tx.dappTx with
  | none => exact itself missing
  | some d =>
    exact itself (lookup_addDApp_eq_none missing fun heq => not_filed (.inl ⟨d, hd, heq.symm⟩))

/-! ## Packaging -/

/-- The transactions of a main block for a DApp. -/
def ofDApp (b : Block) (id : Address) : List Transaction :=
  b.transactions.filter fun t => t.dappID.value = id

theorem dappTxs_eq {list : TxList} {entry : Transaction → Transaction}
    (filed : ∀ t ∈ txs, t.dappID.value = id → list.txs.get t.nonce = some (entry t)) :
    dappTxs list id txs = some ((txs.filter fun t => t.dappID.value = id).map entry) := by
  induction txs with
  | nil => rfl
  | cons t txs ih =>
    have rest := ih fun y hy => filed y (mem_cons_of_mem t hy)
    unfold dappTxs
    split_ifs with here
    · rw [TxList.removeByNouce, filed t mem_cons_self here, rest, filter_cons,
        if_pos (decide_eq_true here)]
      rfl
    · rw [filter_cons, if_neg fun h => here (of_decide_eq_true h)]
      exact rest

theorem packageEach_eq {b : Block} {f : Address → List DAppBlock} {ids : List Address}
    (each : ∀ id ∈ ids,
      packageDApp env b id ((p.dappPending.lookup id).getD (newTxList true)) = some (f id)) :
    packageEach env p b ids = some (ids.flatMap f) := by
  induction ids with
  | nil => rfl
  | cons id ids ih =>
    unfold packageEach
    rw [each id mem_cons_self, ih fun y hy => each y (mem_cons_of_mem id hy)]
    rfl

theorem packageDApps_eq {b : Block} {entry : Address → Transaction → Transaction}
    (filed : ∀ t ∈ b.transactions, ∀ l, p.dappPending.lookup t.dappID.value = some l →
      l.txs.get t.nonce = some (entry t.dappID.value t) ∧ env.dappchains t.dappID.value = true) :
    p.packageDApps env b = some ((env.addresses p.tick p.dappPending.keys).flatMap fun id =>
      if ofDApp b id = [] then [] else [⟨id, b.hash, (ofDApp b id).map (entry id)⟩]) := by
  refine packageEach_eq fun id hid => ?_
  obtain ⟨l, hl⟩ : ∃ l, p.dappPending.lookup id = some l := by
    have held := (env.addresses_perm p.tick p.dappPending.keys).subset hid
    exact isSome_iff_exists.1 (AList.lookup_isSome.2 held)
  have found : dappTxs l id b.transactions = some ((ofDApp b id).map (entry id)) :=
    dappTxs_eq fun t ht hd => by
      subst hd
      exact (filed t ht l hl).1
  rw [hl, getD_some]
  unfold packageDApp
  rw [found, bind_some]
  by_cases none_here : ofDApp b id = []
  · rw [none_here]
    rfl
  · obtain ⟨t, ht⟩ := exists_mem_of_ne_nil _ none_here
    obtain ⟨ht, hd⟩ := mem_filter.1 ht
    have chain : env.dappchains id = true := by
      rw [← of_decide_eq_true hd]
      exact (filed t ht l (by rw [of_decide_eq_true hd]; exact hl)).2
    rw [if_neg (by rwa [map_eq_nil_iff]), if_pos chain, if_neg none_here]

/-! ## No panic -/

/-- The transaction is pending or queued. -/
def Pooled (p : TxPool) (tx : Transaction) : Prop :=
  ∃ a, tx ∈ txsOf p.pending a ∨ tx ∈ txsOf p.queue a

/-- For each transaction of the new block, its DApp has no list and gets none, or the nonce is
listed and the node has the chain. -/
def Foreseen (env : Env) (p : TxPool) (ev : HeadChange) : Prop :=
  ∀ b ∈ ev.newBlock, ∀ t ∈ b.transactions,
    (p.dappPending.lookup t.dappID.value = none ∧
      ∀ x, p.Pooled x ∨ Op.Enters (.reset ev) x → ¬Files x t.dappID.value) ∨
    (Filed p.dappPending t.dappID.value t.nonce ∧ env.dappchains t.dappID.value = true)

theorem missing_reinjected (missing : p.dappPending.lookup id = none)
    (not_filed : ∀ x, p.Pooled x ∨ Op.Enters (.reset ev) x → ¬Files x id) (sound : p.Sound [])
    (hreinject : ev.reinject = .offers txs) (state : StateDB) :
    ((p.follow state ev.newHead).addTxsLocked env txs false).dappPending.lookup id = none := by
  have stocked : Stocked (fun x => ¬Files x id) (fun dapp => dapp.lookup id = none) p.shape :=
    ⟨fun a x hx => not_filed x (.inl ⟨a, .inl hx⟩), fun a x hx => not_filed x (.inl ⟨a, .inr hx⟩),
      missing⟩
  exact (stocked.reinjected (fun _ _ no missing => lookup_promoteDApp_eq_none missing no) sound
    fun x hx => not_filed x (.inr ⟨txs, hreinject, hx⟩)).dapp

theorem filed_reinjected {nonce : ℕ} (filed : Filed p.dappPending id nonce)
    (sound : p.Sound []) (txs : List Transaction) (state : StateDB) (head : Block) :
    Filed ((p.follow state head).addTxsLocked env txs false).dappPending id nonce := by
  have stocked : Stocked (fun _ => True) (fun dapp => Filed dapp id nonce) p.shape :=
    ⟨fun _ _ _ => trivial, fun _ _ _ => trivial, filed⟩
  exact (stocked.reinjected (fun _ x _ filed => filed_promoteDApp filed x) sound
    fun _ _ => trivial).dapp

theorem reset_isSome (stored : ev.Stored) (h : Foreseen env p ev) (sound : p.Sound []) :
    (p.reset env ev).isSome := by
  unfold reset
  cases hreinject : ev.reinject with
  | panics => exact absurd hreinject stored.reinject_ne_panics
  | unrooted => rfl
  | offers txs =>
    cases ev.chain.stateAt ev.newHead.root with
    | none => rfl
    | some state =>
      obtain ⟨b, hb⟩ := isSome_iff_exists.1 stored.new
      simp only [hb, bind_some, isSome_map]
      let q := (p.follow state ev.newHead).addTxsLocked env txs false
      have packaged := @packageDApps_eq env q b
        (fun id t => ((q.dappPending.lookup id).bind fun l => l.txs.get t.nonce).getD t) ?_
      · rw [packaged]
        rfl
      · intro t ht l hl
        have foreseen := (h b hb t ht).resolve_left fun none_filed => by
          rw [missing_reinjected none_filed.1 none_filed.2 sound hreinject] at hl
          exact nomatch hl
        obtain ⟨filed, chain⟩ := foreseen
        obtain ⟨y, hy, hn⟩ := @filed_reinjected env p _ _ filed sound txs state ev.newHead
        rw [txsOf_of_lookup hl] at hy
        have found : l.txs.get t.nonce = some y := SortedMap.get_eq_some_iff.2 ⟨hy, hn⟩
        rw [hl, bind_some, found]
        exact ⟨rfl, chain⟩

/-- If the call is a reset, its heads are stored. -/
def Op.Stored : Op → Prop
  | .reset ev => ev.Stored
  | _ => True

/-- If the call is a reset, its heads are stored and the transactions of the new block are
foreseen. -/
def SafeReset (env : Env) (p : TxPool) : Op → Prop
  | .reset ev => ev.Stored ∧ Foreseen env p ev
  | _ => True

theorem step_isSome {op : Op} (sound : p.Sound []) (safe : SafeReset env p op) :
    (p.step env op).isSome := by
  unfold step
  rw [isSome_map]
  cases op with
  | reset ev => exact reset_isSome safe.1 safe.2 sound
  | _ => rfl

/-- The transaction belongs to no DApp. -/
def Plain (tx : Transaction) : Prop := tx.dappID.value = 0 ∧ tx.dappTx = none

/-- One of the two DApp pointers is the shared one of an empty value. -/
def SharesPointer (tx : Transaction) : Prop := tx.dappID = .empty ∨ tx.refHashId = .empty

theorem not_files (plain : tx.dappTx = none) (shares : SharesPointer tx) (id : Address) :
    ¬Files tx id := by
  rintro (⟨d, hd, -⟩ | ⟨fresh, fresh', -⟩)
  · exact nomatch plain.symm.trans hd
  · exact shares.elim fresh fresh'

theorem promoteDApp_of_plain (plain : tx.dappTx = none) (shares : SharesPointer tx)
    (dapp : Lists) : promoteDApp env dapp tx = dapp := by
  unfold promoteDApp
  rw [plain]
  exact if_neg fun fresh => shares.elim fresh.1 fresh.2

/-- What enters is plain and shares a pointer, and the heads are stored. -/
def PlainCall (op : Op) : Prop :=
  op.Stored ∧ ∀ tx, op.Enters tx → Plain tx ∧ SharesPointer tx

/-- No run with stored heads panics whose resets are foreseen, or whose transactions are plain and
share a pointer. -/
theorem dapp_path_safe (gasPrice : ℤ) (state : StateDB) (maxGas : UInt64) (ops : List Op) :
    (Runs.Throughout (step env) (fun _ op => PlainCall op) (TxPool.new gasPrice state maxGas) ops →
      (Runs.run (step env) (TxPool.new gasPrice state maxGas) ops).isSome ∧
      Runs.Always (step env) (fun p => p.dappPending = ∅) (TxPool.new gasPrice state maxGas) ops) ∧
    (Runs.Throughout (step env) (SafeReset env) (TxPool.new gasPrice state maxGas) ops →
      (Runs.run (step env) (TxPool.new gasPrice state maxGas) ops).isSome) := by
  constructor
  · intro cond
    -- The pool holds only such transactions, and there is no list.
    let I : TxPool → Prop := fun p => p.Sound [] ∧
      Stocked (fun x => x.dappTx = none ∧ SharesPointer x) (· = ∅) p.shape
    have start : I (TxPool.new gasPrice state maxGas) :=
      ⟨sound_new gasPrice state maxGas, stocked_new gasPrice state maxGas rfl⟩
    have keeps (p : TxPool) (op : Op) (p' : TxPool) (h : I p) (call : PlainCall op)
        (hs : p.step env op = some p') : I p' := by
      refine ⟨sound_step h.1 hs, h.2.step (fun dapp tx good empty => ?_) h.1
        (fun tx htx => ⟨(call.2 tx htx).1.2, (call.2 tx htx).2⟩) hs⟩
      rw [promoteDApp_of_plain good.1 good.2, empty]
    have safe (p : TxPool) (op : Op) (h : I p) (call : PlainCall op) : (p.step env op).isSome := by
      refine step_isSome h.1 ?_
      cases op with
      | reset ev =>
        have empty : p.dappPending = ∅ := h.2.dapp
        refine ⟨call.1, fun b _ t _ => .inl ⟨by rw [empty]; rfl, ?_⟩⟩
        rintro x (⟨a, hx | hx⟩ | hx)
        · have good := h.2.pending a x hx
          exact not_files good.1 good.2 _
        · have good := h.2.queue a x hx
          exact not_files good.1 good.2 _
        · exact not_files (call.2 x hx).1.2 (call.2 x hx).2 _
      | _ => trivial
    exact ⟨Runs.run_isSome_of_throughout keeps safe start cond,
      Runs.always_of_throughout keeps (fun _ h => h.2.dapp) start cond⟩
  · exact Runs.run_isSome_of_throughout (fun _ _ _ sound _ => sound_step sound)
      (fun _ _ sound safe => step_isSome sound safe) (sound_new gasPrice state maxGas)

/-- A main transaction with a companion. -/
def sampleMain (hash : Hash) (sender : Address) (nonce : Fin (2 ^ 64)) (id : Address) : Transaction :=
  { sampleTx hash sender nonce 10 with
    dappID := .fresh id
    dappTx := some
      { (sampleTx (hash + 1000) sender nonce 10).toTxData with
        dappID := .fresh id, refHashId := .fresh hash } }

theorem sampleStart_stored (txs : List Transaction) : (sampleStart txs).Stored :=
  ⟨rfl, by simp [sampleStart]⟩

theorem filed_sampleMain (hp : step (sampleEnv 4096 1024 fun id => id = 5) (samplePool 0)
    (.addLocal (sampleMain 1 1 0 5)) = some p) : Filed p.dappPending 5 0 := by
  have added : (step (sampleEnv 4096 1024 fun id => id = 5) (samplePool 0)
      (.addLocal (sampleMain 1 1 0 5))).map (fun p =>
        ((p.dappPending.lookup 5).map fun l => l.txs.items.map (·.nonce))) = some (some [0]) := by
    decide +kernel
  rw [hp] at added
  obtain ⟨l, hl, hitems⟩ := map_eq_some_iff.1 (some.inj added)
  obtain ⟨y, hy, hn⟩ : ∃ y ∈ l.txs.items, y.nonce = 0 := mem_map.1 (by rw [hitems]; decide)
  exact ⟨y, ⟨l, hl, hy⟩, hn⟩

/-- A plain transfer, and a transaction of DApp 5 that was pending before its block came. -/
theorem dapp_path_safe_sample : (Runs.run (step (sampleEnv 4096 1024 fun id => id = 5)) (samplePool 0)
        [.addRemote (sampleTx 1 1 0 10), .reset (sampleStart [sampleTx 1 1 0 10])]).isSome ∧
      (Runs.run (step (sampleEnv 4096 1024 fun id => id = 5)) (samplePool 0)
        [.addLocal (sampleMain 1 1 0 5), .reset (sampleStart [sampleMain 1 1 0 5])]).isSome := by
  constructor
  · have safe := @dapp_path_safe (sampleEnv 4096 1024 fun id => id = 5) 1 (sampleState 0) 1000000
      [.addRemote (sampleTx 1 1 0 10), .reset (sampleStart [sampleTx 1 1 0 10])]
    refine (safe.1 ⟨⟨trivial, ?_⟩, fun t _ => ⟨⟨sampleStart_stored _, ?_⟩, fun _ _ => trivial⟩⟩).1
    · rintro tx rfl
      exact ⟨⟨rfl, rfl⟩, .inl rfl⟩
    · rintro tx ⟨txs, hreinject, htx⟩
      obtain rfl := Reinjection.offers.inj hreinject
      exact absurd htx not_mem_nil
  · have safe := @dapp_path_safe (sampleEnv 4096 1024 fun id => id = 5) 1 (sampleState 0) 1000000
      [.addLocal (sampleMain 1 1 0 5), .reset (sampleStart [sampleMain 1 1 0 5])]
    refine safe.2 ⟨trivial, fun p hp => ⟨⟨sampleStart_stored _, ?_⟩, fun _ _ => trivial⟩⟩
    intro b hb t ht
    obtain rfl := some.inj hb
    obtain rfl := mem_singleton.1 ht
    exact .inr ⟨filed_sampleMain hp, rfl⟩

/-- A decoded plain transaction is filed under the zero DApp, and a block with another nonce makes
the reset panic. -/
theorem decoded_transaction_panics : (∀ op ∈ [Op.addRemote (sampleTx 1 1 0 10).decodeRLP,
        .reset (sampleStart [(sampleTx 2 2 1 10).decodeRLP])], ∀ tx, op.Enters tx → Plain tx) ∧
      Plain (sampleTx 2 2 1 10).decodeRLP ∧
      (Runs.run (step (sampleEnv 4096 1024 fun _ => false)) (samplePool 0)
        [.addRemote (sampleTx 1 1 0 10).decodeRLP]).map (fun p => p.dappPending.keys) = some [0] ∧
      Runs.run (step (sampleEnv 4096 1024 fun _ => false)) (samplePool 0)
        [.addRemote (sampleTx 1 1 0 10).decodeRLP,
          .reset (sampleStart [(sampleTx 2 2 1 10).decodeRLP])] = none := by
  refine ⟨?_, ⟨rfl, rfl⟩, by decide +kernel, isNone_iff_eq_none.1 (by decide +kernel)⟩
  intro op hop tx htx
  rcases mem_cons.1 hop with rfl | hop
  · obtain rfl : tx = _ := htx
    exact ⟨rfl, rfl⟩
  · obtain rfl := mem_singleton.1 hop
    obtain ⟨txs, hreinject, htx⟩ := htx
    obtain rfl := Reinjection.offers.inj hreinject
    exact absurd htx not_mem_nil

end TxPool

end JuChain.Pool
