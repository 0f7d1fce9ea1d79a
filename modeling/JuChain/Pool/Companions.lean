import JuChain.Pool.DApp

/-!
# Companions

Each companion should be packaged once, after the main block with its main transaction.  The lists
of the DApps have one place per nonce and keep what they have, so this holds in the runs in which
the nonce tells the main transactions of a DApp apart (`Book`).
-/

namespace JuChain.Pool

open State List Option

/-- For each DApp and nonce the hash of a main transaction, and its companion. -/
structure Book where
  entry : Address → ℕ → Option (Hash × TxData)
  companion_of : ∀ {id n h c}, entry id n = some (h, c) → c.dappID.value = id ∧ c.nonce = n

namespace Book

/-- The companion of a main transaction. -/
def companion (book : Book) (t : Transaction) : Option Transaction :=
  (book.entry t.dappID.value t.nonce).bind fun e =>
    if e.1 = t.hash then some { toTxData := e.2 } else none

/-- The hash of the main transaction of a companion. -/
def main (book : Book) (y : Transaction) : Option Hash :=
  (book.entry y.dappID.value y.nonce).map fun e => e.1

variable {book : Book} {t y : Transaction}

theorem companion_eq_some {c : TxData} (h : book.entry t.dappID.value t.nonce = some (t.hash, c)) :
    book.companion t = some { toTxData := c } := by
  unfold companion
  rw [h]
  exact if_pos rfl

theorem companion_eq_none (h : ∀ c, book.entry t.dappID.value t.nonce ≠ some (t.hash, c)) :
    book.companion t = none := by
  unfold companion
  cases hentry : book.entry t.dappID.value t.nonce with
  | none => rfl
  | some e =>
    refine if_neg fun same => h e.2 ?_
    rw [hentry, ← same]

theorem of_companion (h : book.companion t = some y) :
    y.dappID.value = t.dappID.value ∧ book.main y = some t.hash := by
  obtain ⟨⟨hash, c⟩, hentry, hc⟩ := bind_eq_some_iff.1 h
  split_ifs at hc with same
  obtain rfl := some.inj hc
  obtain ⟨hid, hn⟩ := book.companion_of hentry
  refine ⟨hid, ?_⟩
  unfold main
  rw [hid, hn, hentry, ← same]
  rfl

/-- The companions of the transactions of a block for a DApp, in order. -/
def companions (book : Book) (b : Block) (id : Address) : List Transaction :=
  (TxPool.ofDApp b id).filterMap book.companion

/-- The DApp blocks that a main block should have. -/
def dappBlocks (book : Book) (b : Block) (id : Address) : List DAppBlock :=
  if book.companions b id = [] then [] else [⟨id, b.hash, book.companions b id⟩]

end Book

namespace TxPool

variable {env : Env} {book : Book} {p p' : TxPool} {blocks : List DAppBlock}

/-! ## The lists of the DApps -/

/-- The transaction shares a pointer, so that it is not filed itself, and its companion is in the
book. -/
def Booked (book : Book) (tx : Transaction) : Prop :=
  SharesPointer tx ∧
    ∀ c, tx.dappTx = some c → book.entry tx.dappID.value tx.nonce = some (tx.hash, c)

/-- The lists of the DApps hold companions of the book, in the right list. -/
def Kept (book : Book) (dapp : Lists) : Prop :=
  ∀ id, ∀ y ∈ txsOf dapp id, ∃ h c, book.entry id y.nonce = some (h, c) ∧ y = { toTxData := c }

theorem Kept.promoteDApp {dapp : Lists} {tx : Transaction} (booked : Booked book tx)
    (h : Kept book dapp) : Kept book (promoteDApp env dapp tx) := by
  have shared : ¬(tx.dappID ≠ .empty ∧ tx.refHashId ≠ .empty) := fun fresh =>
    booked.1.elim fresh.1 fresh.2
  unfold TxPool.promoteDApp
  cases hd : tx.dappTx with
  | none =>
    rwa [if_neg shared]
  | some c =>
    have entry := booked.2 c hd
    obtain ⟨hid, hn⟩ := book.companion_of entry
    rw [if_neg shared]
    intro id y hy
    rcases mem_addDApp.1 hy with hy | ⟨rfl, rfl, -⟩
    · exact h id y hy
    · dsimp only
      rw [hid, hn]
      exact ⟨tx.hash, c, entry, rfl⟩

/-- For each transaction of the new block, its DApp has no list and gets none, and there is no
companion; or the companion is filed and the node has the chain. -/
def Accounted (env : Env) (book : Book) (p : TxPool) (ev : HeadChange) : Prop :=
  ∀ b ∈ ev.newBlock, ∀ t ∈ b.transactions,
    ((p.dappPending.lookup t.dappID.value = none ∧
        ∀ x, p.Pooled x ∨ Op.Enters (.reset ev) x → ¬Files x t.dappID.value) ∧
      ∀ c, book.entry t.dappID.value t.nonce ≠ some (t.hash, c)) ∨
    ((Filed p.dappPending t.dappID.value t.nonce ∧ env.dappchains t.dappID.value = true) ∧
      ∃ c, book.entry t.dappID.value t.nonce = some (t.hash, c))

theorem filter_flatMap_of_nodup {f : Address → List DAppBlock} (own : ∀ id, ∀ b ∈ f id, b.dappID = id)
    {ids : List Address} (nodup : ids.Nodup) (id : Address) :
    (ids.flatMap f).filter (fun b => b.dappID = id) = if id ∈ ids then f id else [] := by
  induction ids with
  | nil => rfl
  | cons i ids ih =>
    obtain ⟨fresh, nodup⟩ := nodup_cons.1 nodup
    rw [flatMap_cons, filter_append, ih nodup]
    by_cases hi : id = i
    · subst hi
      rw [if_neg fresh, if_pos mem_cons_self, append_nil, filter_eq_self]
      exact fun b hb => decide_eq_true (own id b hb)
    · have none_here : (f i).filter (fun b => b.dappID = id) = [] := by
        rw [filter_eq_nil_iff]
        intro b hb same
        exact hi ((of_decide_eq_true same).symm.trans (own i b hb))
      rw [none_here, nil_append]
      simp only [mem_cons, hi, false_or]

theorem reset_blocks {ev : HeadChange} {txs : List Transaction} {state : StateDB} {main : Block}
    (stocked : Stocked (Booked book) (Kept book) p.shape) (sound : p.Sound [])
    (accounted : Accounted env book p ev) (hreinject : ev.reinject = .offers txs)
    (hmain : ev.newBlock = some main) (booked : ∀ tx ∈ txs, Booked book tx)
    (built : ((p.follow state ev.newHead).addTxsLocked env txs false).packageDApps env main =
      some blocks) (id : Address) :
    blocks.filter (fun b => b.dappID = id) = book.dappBlocks main id := by
  have kept : Kept book ((p.follow state ev.newHead).addTxsLocked env txs false).dappPending :=
    (stocked.reinjected (fun _ _ good h => h.promoteDApp good) sound booked).dapp
  -- A transaction whose DApp has a list has a companion, and it is in the list.
  have listed {t : Transaction} (ht : t ∈ main.transactions) {l : TxList}
      (hl : ((p.follow state ev.newHead).addTxsLocked env txs false).dappPending.lookup
        t.dappID.value = some l) :
      ∃ y, book.companion t = some y ∧ l.txs.get t.nonce = some y ∧
        env.dappchains t.dappID.value = true := by
    rcases accounted main hmain t ht with ⟨⟨missing, not_filed⟩, -⟩ | ⟨⟨filed, chain⟩, c, hc⟩
    · rw [missing_reinjected missing not_filed sound hreinject] at hl
      exact nomatch hl
    · obtain ⟨y, hy, hn⟩ := @filed_reinjected env p _ _ filed sound txs state ev.newHead
      obtain ⟨h, c', hentry, rfl⟩ := kept _ y hy
      rw [hn, hc] at hentry
      obtain ⟨-, rfl⟩ := Prod.mk.inj (some.inj hentry)
      rw [txsOf_of_lookup hl] at hy
      exact ⟨_, Book.companion_eq_some hc, SortedMap.get_eq_some_iff.2 ⟨hy, hn⟩, chain⟩
  have unlisted {t : Transaction} (ht : t ∈ main.transactions)
      (hl : ((p.follow state ev.newHead).addTxsLocked env txs false).dappPending.lookup
        t.dappID.value = none) : book.companion t = none := by
    rcases accounted main hmain t ht with ⟨-, no_companion⟩ | ⟨⟨filed, -⟩, -⟩
    · exact Book.companion_eq_none no_companion
    · obtain ⟨y, ⟨l, hl', -⟩, -⟩ := @filed_reinjected env p _ _ filed sound txs state ev.newHead
      exact nomatch hl.symm.trans hl'
  generalize (p.follow state ev.newHead).addTxsLocked env txs false = q at *
  have packaged := @packageDApps_eq env q main (fun _ t => (book.companion t).getD t)
    fun t ht l hl => by
      obtain ⟨y, hy, found, chain⟩ := listed ht hl
      rw [hy]
      exact ⟨found, chain⟩
  obtain rfl := some.inj (built.symm.trans packaged)
  have perm := env.addresses_perm q.tick q.dappPending.keys
  rw [filter_flatMap_of_nodup (fun i b hb => ?_) (perm.nodup_iff.2 q.dappPending.keys_nodup)]
  · have mem : id ∈ env.addresses q.tick q.dappPending.keys ↔ (q.dappPending.lookup id).isSome := by
      rw [perm.mem_iff, AList.lookup_isSome]
      rfl
    unfold Book.dappBlocks
    cases hl : q.dappPending.lookup id with
    | none =>
      have no_companions : book.companions main id = [] := by
        refine filterMap_eq_nil_iff.2 fun t ht => ?_
        obtain ⟨hin, hd⟩ := mem_filter.1 ht
        obtain rfl := of_decide_eq_true hd
        exact unlisted hin hl
      rw [hl] at mem
      rw [if_neg (fun hin => nomatch mem.1 hin), if_pos no_companions]
    | some l =>
      have all_companions : book.companions main id =
          (ofDApp main id).map fun t => (book.companion t).getD t := by
        rw [← filterMap_eq_map]
        refine filterMap_congr fun t ht => ?_
        obtain ⟨hin, hd⟩ := mem_filter.1 ht
        obtain rfl := of_decide_eq_true hd
        obtain ⟨y, hy, -⟩ := listed hin hl
        rw [Function.comp_apply, hy]
        rfl
      rw [hl] at mem
      rw [if_pos (mem.2 rfl), all_companions]
      simp only [map_eq_nil_iff]
  · split_ifs at hb
    · exact nomatch hb
    · rw [mem_singleton.1 hb]

/-! ## No companion twice -/

/-- The hashes of the transactions of a block that have a companion. -/
def mains (book : Book) (b : Block) : List Hash :=
  (b.transactions.filter fun t => (book.companion t).isSome).map (·.hash)

/-- The DApp blocks are those that the main block should have. -/
def Packaged (book : Book) (e : Block × List DAppBlock) : Prop :=
  ∀ id, e.2.filter (fun b => b.dappID = id) = book.dappBlocks e.1 id

section Packaged

variable {e : Block × List DAppBlock} (h : Packaged book e)

include h

theorem Packaged.transactions_eq {b : DAppBlock} (hb : b ∈ e.2) :
    b.transactions = book.companions e.1 b.dappID := by
  have listed : b ∈ e.2.filter fun b' => b'.dappID = b.dappID :=
    mem_filter.2 ⟨hb, decide_eq_true rfl⟩
  rw [h, Book.dappBlocks] at listed
  split_ifs at listed
  · exact nomatch listed
  · exact congrArg DAppBlock.transactions (mem_singleton.1 listed)

theorem Packaged.main {y : Transaction} (hy : y ∈ e.2.flatMap (·.transactions)) :
    ∃ n ∈ mains book e.1, book.main y = some n := by
  obtain ⟨b, hb, hy⟩ := mem_flatMap.1 hy
  rw [h.transactions_eq hb] at hy
  obtain ⟨t, ht, hc⟩ := mem_filterMap.1 hy
  have has : (book.companion t).isSome = true := by
    rw [hc]
    rfl
  exact ⟨t.hash, mem_map_of_mem (mem_filter.2 ⟨(mem_filter.1 ht).1, has⟩),
    (Book.of_companion hc).2⟩

theorem Packaged.ids_nodup : (e.2.map (·.dappID)).Nodup := by
  rw [List.nodup_iff_count_le_one]
  intro id
  have few : (e.2.filter fun b => b.dappID = id).length ≤ 1 := by
    rw [h, Book.dappBlocks]
    split_ifs
    · exact Nat.zero_le 1
    · exact le_rfl
  rw [List.count, List.countP_map, List.countP_eq_length_filter]
  exact few

theorem Packaged.nodup (distinct : (mains book e.1).Nodup) : (e.2.flatMap (·.transactions)).Nodup := by
  refine nodup_flatMap.2 ⟨fun b hb => ?_, ?_⟩
  · rw [h.transactions_eq hb]
    have apart : e.1.transactions.Pairwise fun t t' =>
        (book.companion t).isSome = true → (book.companion t').isSome = true → t.hash ≠ t'.hash :=
      pairwise_filter.1 (pairwise_map.1 distinct)
    have here : (ofDApp e.1 b.dappID).Pairwise fun t t' =>
        (book.companion t).isSome = true → (book.companion t').isSome = true → t.hash ≠ t'.hash :=
      apart.sublist filter_sublist
    refine here.filterMap book.companion fun t t' hne y hy y' hy' => ?_
    rintro rfl
    have same : some t.hash = some t'.hash :=
      (Book.of_companion hy).2.symm.trans (Book.of_companion hy').2
    exact hne (by rw [hy]; rfl) (by rw [hy']; rfl) (some.inj same)
  · have apart := pairwise_map.1 h.ids_nodup
    refine apart.imp_of_mem fun {b b'} hb hb' hne => ?_
    intro y hy hy'
    have hy : y ∈ b.transactions := hy
    have hy' : y ∈ b'.transactions := hy'
    rw [h.transactions_eq hb] at hy
    rw [h.transactions_eq hb'] at hy'
    obtain ⟨t, ht, hc⟩ := mem_filterMap.1 hy
    obtain ⟨t', ht', hc'⟩ := mem_filterMap.1 hy'
    have hid := of_decide_eq_true (mem_filter.1 ht).2
    have hid' := of_decide_eq_true (mem_filter.1 ht').2
    refine hne ?_
    rw [← hid, ← hid', ← (Book.of_companion hc).1, (Book.of_companion hc').1]

end Packaged

/-! ## Runs -/

/-- The main block after which an operation builds DApp blocks, if it reaches the new head. -/
def Op.packages : Op → Option Block
  | .reset ev =>
    match ev.reinject with
    | .offers _ => if (ev.chain.stateAt ev.newHead.root).isSome then ev.newBlock else none
    | _ => none
  | _ => none

/-- The main blocks of a run with the DApp blocks built after them. -/
def packagings (env : Env) : TxPool → List Op → List (Block × List DAppBlock)
  | _, [] => []
  | p, op :: ops =>
    match p.exec env op with
    | none => []
    | some (p', blocks) => op.packages.toList.map (·, blocks) ++ packagings env p' ops

/-- What enters is in the book, and the new block is stored and accounted for. -/
def Bookkept (env : Env) (book : Book) (p : TxPool) (op : Op) : Prop :=
  (∀ tx, op.Enters tx → Booked book tx) ∧
    match op with
    | .reset ev => ev.Stored ∧ Accounted env book p ev
    | _ => True

theorem Bookkept.safeReset {op : Op} (h : Bookkept env book p op) : SafeReset env p op := by
  cases op with
  | reset ev =>
    refine ⟨h.2.1, fun b hb t ht => ?_⟩
    exact (h.2.2 b hb t ht).imp And.left And.left
  | _ => trivial

theorem heads_packagings {ops : List Op} (ran : (Runs.run (step env) p ops).isSome) :
    (packagings env p ops).map (·.1) = ops.filterMap Op.packages := by
  induction ops generalizing p with
  | nil => rfl
  | cons op ops ih =>
    unfold packagings
    rw [Runs.run_cons, step] at ran
    cases hexec : p.exec env op with
    | none => simp [hexec] at ran
    | some result =>
      rw [hexec] at ran
      simp only [map_append, ih ran, List.map_map, filterMap_cons]
      cases op.packages with
      | none => rfl
      | some b => rfl

theorem packaged_exec {op : Op} {b : Block} (sound : p.Sound [])
    (stocked : Stocked (Booked book) (Kept book) p.shape) (cond : Bookkept env book p op)
    (hexec : p.exec env op = some (p', blocks)) (hb : op.packages = some b) :
    Packaged book (b, blocks) := by
  cases op with
  | reset ev =>
    unfold Op.packages at hb
    have hreset : p.reset env ev = some (p', blocks) := hexec
    unfold reset at hreset
    cases hreinject : ev.reinject with
    | panics | unrooted => simp [hreinject] at hb
    | offers txs =>
      simp only [hreinject] at hb hreset
      split_ifs at hb with follows
      obtain ⟨state, hstate⟩ := isSome_iff_exists.1 follows
      simp only [hstate, hb, Option.bind_some] at hreset
      obtain ⟨built, hbuilt, heq⟩ := map_eq_some_iff.1 hreset
      obtain ⟨-, rfl⟩ := Prod.mk.inj heq
      exact fun id => reset_blocks stocked sound cond.2.2 hreinject hb
        (fun tx htx => cond.1 tx ⟨txs, hreinject, htx⟩) hbuilt id
  | _ => exact nomatch hb

theorem packaged_run {ops : List Op} (sound : p.Sound [])
    (stocked : Stocked (Booked book) (Kept book) p.shape)
    (cond : Runs.Throughout (step env) (Bookkept env book) p ops) :
    ∀ e ∈ packagings env p ops, Packaged book e := by
  induction ops generalizing p with
  | nil => exact fun e he => nomatch he
  | cons op ops ih =>
    intro e he
    unfold packagings at he
    cases hexec : p.exec env op with
    | none =>
      rw [hexec] at he
      exact nomatch he
    | some result =>
      obtain ⟨p', blocks⟩ := result
      have hs : p.step env op = some p' := by
        unfold step
        rw [hexec]
        rfl
      rw [hexec] at he
      rcases mem_append.1 he with here | later
      · obtain ⟨b, hb, rfl⟩ := mem_map.1 here
        exact packaged_exec sound stocked cond.1 hexec (mem_toList.1 hb)
      · exact ih (sound_step sound hs)
          (stocked.step (fun _ _ good h => h.promoteDApp good) sound cond.1.1 hs) (cond.2 p' hs) e later

/-- A run that the book accounts for does not panic.  After each main block that a reset reaches,
every DApp gets its companions in order, and none is packaged twice. -/
theorem companions_packaged_once (book : Book) (gasPrice : ℤ) (state : StateDB) (maxGas : UInt64)
    (ops : List Op)
    (cond : Runs.Throughout (step env) (Bookkept env book) (TxPool.new gasPrice state maxGas) ops)
    (once : ((ops.filterMap Op.packages).flatMap (mains book)).Nodup) :
    (Runs.run (step env) (TxPool.new gasPrice state maxGas) ops).isSome ∧
    (packagings env (TxPool.new gasPrice state maxGas) ops).map (·.1) =
      ops.filterMap Op.packages ∧
    (∀ e ∈ packagings env (TxPool.new gasPrice state maxGas) ops, ∀ id,
      e.2.filter (fun b => b.dappID = id) = book.dappBlocks e.1 id) ∧
    ((packagings env (TxPool.new gasPrice state maxGas) ops).flatMap fun e =>
      e.2.flatMap (·.transactions)).Nodup := by
  have sound := sound_new gasPrice state maxGas
  have ran := Runs.run_isSome_of_throughout (fun _ _ _ sound _ => sound_step sound)
    (fun _ _ sound kept => step_isSome sound (Bookkept.safeReset kept)) sound cond
  have packaged := packaged_run sound
    (stocked_new gasPrice state maxGas fun _ _ ⟨_, hl, _⟩ => nomatch hl) cond
  have heads := heads_packagings ran
  refine ⟨ran, heads, packaged, ?_⟩
  rw [← heads, flatMap_map] at once
  obtain ⟨each, apart⟩ := nodup_flatMap.1 once
  refine nodup_flatMap.2 ⟨fun e he => (packaged e he).nodup (each e he), ?_⟩
  refine apart.imp_of_mem fun {e e'} he he' disjoint y hy hy' => ?_
  obtain ⟨n, hn, hmain⟩ := (packaged e he).main hy
  obtain ⟨n', hn', hmain'⟩ := (packaged e' he').main hy'
  obtain rfl := some.inj (hmain.symm.trans hmain')
  exact disjoint hn hn'

/-- Two main transactions of DApp 5 have one nonce: the DApp block has the companion of the one not
included. -/
theorem wrong_companion_packaged : (packagings (sampleEnv 4096 1024 fun id => id = 5) (samplePool 0)
        [.addLocal (sampleMain 1 1 0 5), .addLocal (sampleMain 2 2 0 5),
          .reset (sampleStart [sampleMain 2 2 0 5])]).map
      (fun e => e.2.map fun b => (b.dappID, b.transactions.map (·.hash))) = [[(5, [1001])]] ∧
    (sampleMain 1 1 0 5).dappTx.map (·.hash) = some 1001 ∧
    (sampleMain 2 2 0 5).dappTx.map (·.hash) = some 1002 := by
  decide +kernel

/-- One companion, of DApp 5. -/
def sampleBook : Book where
  entry id n :=
    if id = 5 ∧ n = 0 then
      some (1, { (sampleTx 1001 1 0 10).toTxData with dappID := .fresh 5, refHashId := .fresh 1 })
    else none
  companion_of h := by
    split_ifs at h with here
    obtain ⟨rfl, rfl⟩ := here
    obtain ⟨-, rfl⟩ := Prod.mk.inj (Option.some.inj h)
    exact ⟨rfl, rfl⟩

/-- Its main transaction is added and included. -/
def sampleOps : List Op := [.addLocal (sampleMain 1 1 0 5), .reset (sampleStart [sampleMain 1 1 0 5])]

theorem sampleOps_bookkept :
    Runs.Throughout (step (sampleEnv 4096 1024 fun id => id = 5))
      (Bookkept (sampleEnv 4096 1024 fun id => id = 5) sampleBook) (samplePool 0) sampleOps := by
  refine ⟨⟨?_, trivial⟩, fun p hp => ⟨⟨?_, sampleStart_stored _, ?_⟩, fun _ _ => trivial⟩⟩
  · rintro tx rfl
    refine ⟨.inr rfl, fun c hc => ?_⟩
    obtain rfl := some.inj hc
    rfl
  · rintro tx ⟨txs, hreinject, htx⟩
    obtain rfl := Reinjection.offers.inj hreinject
    exact absurd htx not_mem_nil
  · intro b hb t ht
    obtain rfl := some.inj hb
    obtain rfl := mem_singleton.1 ht
    exact .inr ⟨⟨filed_sampleMain hp, rfl⟩, _, rfl⟩

/-- The companion of a main transaction of DApp 5 is packaged after the block with the
transaction. -/
theorem companion_packaged_sample :
    (packagings (sampleEnv 4096 1024 fun id => id = 5) (samplePool 0) sampleOps).map (·.1) =
        [sampleHead [sampleMain 1 1 0 5]] ∧
      ∀ e ∈ packagings (sampleEnv 4096 1024 fun id => id = 5) (samplePool 0) sampleOps,
        (e.2.filter fun b => b.dappID = 5) =
          [⟨5, 100, [{ toTxData := { (sampleTx 1001 1 0 10).toTxData with
            dappID := .fresh 5, refHashId := .fresh 1 } }]⟩] := by
  obtain ⟨-, heads, packaged, -⟩ :=
    companions_packaged_once sampleBook 1 (sampleState 0) 1000000 sampleOps sampleOps_bookkept
      (by decide +kernel)
  refine ⟨heads, fun e he => ?_⟩
  have head : e.1 = sampleHead [sampleMain 1 1 0 5] := by
    have mem := mem_map_of_mem (f := (·.1)) he
    exact mem_singleton.1 (heads ▸ mem : e.1 ∈ sampleOps.filterMap Op.packages)
  rw [packaged e he 5, head]
  rfl

end TxPool

end JuChain.Pool
