import JuChain.Lib.Heap
import JuChain.Lib.SortedMap
import JuChain.State.Transition
import Mathlib.Data.List.AList

/-!
# Transaction lists

`core/tx_list.go`: the transactions of one account by nonce, and the heap of all pooled transactions
by price, in which only the entries whose hash is still in the pool count (`TxPricedList.live`).
-/

namespace JuChain.Pool

open List SortedMap

/-! ## Transactions -/

/-- A pointer to a value of `w` bits: the shared one to the zero value (`EmptyDAppIdHash`,
`EmptyHash`), or any other. -/
inductive Ref (w : ℕ)
  | empty
  | fresh (value : BitVec w)
  deriving DecidableEq

/-- The value behind a reference. -/
def Ref.value {w : ℕ} : Ref w → BitVec w
  | .empty => 0
  | .fresh value => value

/-- `txdata` with the cached hash, size and sender; the sender is missing when the signature is
invalid. -/
structure TxData where
  hash : Hash
  sender : Option Address
  nonce : ℕ
  nonce_lt : nonce < 2 ^ 64
  gasPrice : ℤ
  gas : UInt64
  recipient : Option (Ref 160)
  value : ℤ
  data : Bytes
  size : ℕ
  dappID : Ref 160
  refHashId : Ref 256
  deriving DecidableEq

/-- `types.Transaction`, with the DApp transaction that accompanies it. -/
structure Transaction extends TxData where
  dappTx : Option TxData := none
  deriving DecidableEq

namespace Transaction

/-- `Transaction.Cost`. -/
def cost (tx : Transaction) : ℤ := tx.gasPrice * tx.gas.toNat + tx.value

/-- `To() == nil`: the shared zero pointer counts as no recipient. -/
def toIsNil (tx : Transaction) : Bool := tx.recipient = none ∨ tx.recipient = some .empty

/-- What `DecodeRLP` makes of an encoding: new pointers and no companion. -/
def decodeRLP (tx : Transaction) : Transaction :=
  { tx with
    recipient := tx.recipient.map fun r => .fresh r.value
    dappID := .fresh tx.dappID.value
    refHashId := .fresh tx.refHashId.value
    dappTx := none }

end Transaction

/-! ## `txList` -/

abbrev TxSortedMap := SortedMap Transaction fun tx => tx.nonce

/-- The two caps are upper bounds of the costs and the gas limits in the list. -/
structure TxList where
  strict : Bool
  txs : TxSortedMap
  costcap : ℤ
  gascap : UInt64
  cost_le : ∀ tx ∈ txs, tx.cost ≤ costcap
  gas_le : ∀ tx ∈ txs, tx.gas ≤ gascap
  deriving DecidableEq

def newTxList (strict : Bool) : TxList where
  strict := strict
  txs := .empty
  costcap := 0
  gascap := 0
  cost_le _ h := absurd h (SortedMap.notMem_empty _)
  gas_le _ h := absurd h (SortedMap.notMem_empty _)

/-- The new transaction does not pay enough more than the old one to replace it. -/
def outbids (priceBump : UInt64) (old tx : Transaction) : Bool :=
  tx.gasPrice ≤ old.gasPrice ∨ tx.gasPrice < old.gasPrice * (100 + priceBump.toInt64).toInt / 100

namespace TxList

variable (l : TxList)

def len : ℕ := l.txs.items.length

def overlaps (tx : Transaction) : Bool := (l.txs.get tx.nonce).isSome

/-- A list of some of the transactions. -/
def restrict (txs : TxSortedMap) (h : ∀ tx ∈ txs, tx ∈ l.txs) : TxList :=
  { l with
    txs := txs
    cost_le := fun tx htx => l.cost_le tx (h tx htx)
    gas_le := fun tx htx => l.gas_le tx (h tx htx) }

/-- A transaction is put, and the caps are raised. -/
def put (l : TxList) (tx : Transaction) : TxList where
  strict := l.strict
  txs := l.txs.put tx
  costcap := if l.costcap < tx.cost then tx.cost else l.costcap
  gascap := if l.gascap < tx.gas then tx.gas else l.gascap
  cost_le y hy := by
    rcases SortedMap.mem_put.1 hy with rfl | ⟨hy, -⟩
    · split_ifs <;> omega
    · have := l.cost_le y hy
      split_ifs <;> omega
  gas_le y hy := by
    rcases SortedMap.mem_put.1 hy with rfl | ⟨hy, -⟩
    · split_ifs with h
      · exact UInt64.le_refl _
      · exact UInt64.not_lt.1 h
    · split_ifs with h
      · exact UInt64.le_trans (l.gas_le y hy) (UInt64.le_of_lt h)
      · exact l.gas_le y hy

/-- The list after `Add` and the replaced transaction, or `none` if the old one stays. -/
def add (tx : Transaction) (priceBump : UInt64) : Option (TxList × Option Transaction) :=
  let old := l.txs.get tx.nonce
  if old.any (outbids priceBump · tx) then none else some (l.put tx, old)

/-- The transactions that satisfy `f`, and the rest. -/
def split (l : TxList) (f : Transaction → Bool) : List Transaction × TxList :=
  ((l.txs.split f).1, l.restrict (l.txs.split f).2 fun _ h => (SortedMap.mem_split_snd.1 h).1)

/-- `Forward`: the transactions below the threshold, and the rest. -/
def forward (threshold : ℕ) : List Transaction × TxList :=
  l.split fun tx => tx.nonce < threshold

/-- Too expensive, or with too much gas. -/
def exceeds (costLimit : ℤ) (gasLimit : UInt64) (tx : Transaction) : Bool :=
  costLimit < tx.cost ∨ gasLimit < tx.gas

/-- Lower the caps to limits that no transaction of the list exceeds. -/
def lowerCaps (costLimit : ℤ) (gasLimit : UInt64)
    (h : ∀ tx ∈ l.txs, exceeds costLimit gasLimit tx = false) : TxList :=
  { l with
    costcap := costLimit
    gascap := gasLimit
    cost_le := fun tx htx => by
      have := h tx htx
      simp only [exceeds, decide_eq_false_iff_not, not_or, not_lt] at this
      exact this.1
    gas_le := fun tx htx => by
      have := h tx htx
      simp only [exceeds, decide_eq_false_iff_not, not_or, UInt64.not_lt] at this
      exact this.2 }

/-- The lowest nonce. -/
def lowestNonce (txs : List Transaction) : ℕ :=
  txs.foldl (fun lowest tx => if tx.nonce < lowest then tx.nonce else lowest) (2 ^ 64 - 1)

/-- `Filter`: the transactions that exceed the limits, in a strict list also those after the first
of them, and the rest. -/
def filter (costLimit : ℤ) (gasLimit : UInt64) : List Transaction × List Transaction × TxList :=
  if l.costcap ≤ costLimit ∧ l.gascap ≤ gasLimit then ([], [], l)
  else
    let removed := (l.split (exceeds costLimit gasLimit)).1
    let rest := (l.split (exceeds costLimit gasLimit)).2.lowerCaps costLimit gasLimit
      fun _ h => (SortedMap.mem_split_snd.1 h).2
    if l.strict ∧ removed ≠ [] then
      let (invalids, rest) := rest.split fun tx => lowestNonce removed < tx.nonce
      (removed, invalids, rest)
    else (removed, [], rest)

/-- `Cap`: the transactions beyond the threshold, by nonce, and the rest. -/
def cap (l : TxList) (threshold : ℕ) : List Transaction × TxList :=
  ((l.txs.cap threshold).1, l.restrict (l.txs.cap threshold).2 fun _ h => SortedMap.mem_cap.2 (.inr h))

/-- `Remove` of a nonce that is there: in a strict list also those after it, and the rest. -/
def remove (tx : Transaction) : Option (List Transaction × TxList) :=
  if l.overlaps tx then
    let rest := (l.split fun t => t.nonce = tx.nonce).2
    if l.strict then some (rest.split fun t => tx.nonce < t.nonce) else some ([], rest)
  else none

/-- `RemoveByNouce`, which removes nothing; `none` is the nil pointer it then reads. -/
def removeByNouce (nouce : ℕ) : Option Transaction := l.txs.get nouce

def ready (l : TxList) (start : ℕ) : List Transaction × TxList :=
  ((l.txs.ready start).1, l.restrict (l.txs.ready start).2 fun _ h =>
    ((SortedMap.ready_spec l.txs start).mem _).2 (.inr h))

/-! What the operations take out of a list and leave in it. -/

/-- The list is cut into two parts. -/
structure Parts (l : TxList) (out : List Transaction) (rest : TxList) : Prop where
  txs : l.txs.Parts out rest.txs
  strict : rest.strict = l.strict

variable {l : TxList}

theorem Parts.perm {l rest : TxList} {out out' : List Transaction} (h : Parts l out rest)
    (perm : out'.Perm out) : Parts l out' rest := ⟨h.txs.perm perm, h.strict⟩

theorem Parts.trans {rest rest' : TxList} {out out' : List Transaction} (h : Parts l out rest)
    (h' : Parts rest out' rest') : Parts l (out ++ out') rest' :=
  ⟨h.txs.trans h'.txs, h'.strict.trans h.strict⟩

theorem parts_nil (l : TxList) : Parts l [] l := ⟨SortedMap.parts_nil l.txs, rfl⟩

theorem parts_split (l : TxList) (f : Transaction → Bool) : Parts l (l.split f).1 (l.split f).2 :=
  ⟨SortedMap.parts_split l.txs f, rfl⟩

theorem mem_forward {l : TxList} {n : ℕ} {x : Transaction} :
    x ∈ (l.forward n).2.txs ↔ x ∈ l.txs ∧ n ≤ x.nonce :=
  SortedMap.mem_split_snd.trans (and_congr_right fun _ => by rw [decide_eq_false_iff_not, not_lt])

theorem parts_cap (l : TxList) (n : ℕ) : Parts l (l.cap n).1 (l.cap n).2 :=
  ⟨SortedMap.parts_cap l.txs n, rfl⟩

theorem parts_ready (l : TxList) (start : ℕ) : Parts l (l.ready start).1 (l.ready start).2 :=
  ⟨SortedMap.parts_ready l.txs start, rfl⟩

theorem parts_filter (l : TxList) (costLimit : ℤ) (gasLimit : UInt64) :
    Parts l ((l.filter costLimit gasLimit).1 ++ (l.filter costLimit gasLimit).2.1)
      (l.filter costLimit gasLimit).2.2 := by
  have first := parts_split l (exceeds costLimit gasLimit)
  have lowered : Parts l (l.split (exceeds costLimit gasLimit)).1
      ((l.split (exceeds costLimit gasLimit)).2.lowerCaps costLimit gasLimit
        fun _ h => (mem_split_snd.1 h).2) := ⟨first.txs, rfl⟩
  unfold filter
  dsimp only
  split_ifs
  · exact parts_nil l
  · exact lowered.trans (parts_split _ _)
  · rw [append_nil]
    exact lowered

theorem exceeds_of_mem_filter {costLimit : ℤ} {gasLimit : UInt64} {tx : Transaction}
    (htx : tx ∈ (l.filter costLimit gasLimit).2.2.txs) : exceeds costLimit gasLimit tx = false := by
  unfold filter at htx
  dsimp only at htx
  split_ifs at htx with low
  · -- The caps bound what is in the list.
    have hcost := l.cost_le tx htx
    have hgas := l.gas_le tx htx
    simp only [exceeds, decide_eq_false_iff_not, not_or, not_lt, UInt64.not_lt]
    exact ⟨hcost.trans low.1, UInt64.le_trans hgas low.2⟩
  · exact (mem_split_snd.1 (mem_split_snd.1 htx).1).2
  · exact (mem_split_snd.1 htx).2

theorem lowestNonce_foldl_le (txs : List Transaction) (n : ℕ) :
    txs.foldl (fun lowest tx => if tx.nonce < lowest then tx.nonce else lowest) n ≤ n ∧ ∀ x ∈ txs,
        txs.foldl (fun lowest tx => if tx.nonce < lowest then tx.nonce else lowest) n ≤ x.nonce := by
  induction txs generalizing n with
  | nil => exact ⟨le_rfl, fun x hx => nomatch hx⟩
  | cons y txs ih =>
    obtain ⟨base, each⟩ := ih (if y.nonce < n then y.nonce else n)
    have lower : (if y.nonce < n then y.nonce else n) ≤ n ∧
        (if y.nonce < n then y.nonce else n) ≤ y.nonce := by
      split_ifs <;> omega
    refine ⟨base.trans lower.1, fun x hx => ?_⟩
    rcases mem_cons.1 hx with rfl | hx
    · exact base.trans lower.2
    · exact each x hx

theorem lowestNonce_foldl_mem (txs : List Transaction) (n : ℕ) :
    txs.foldl (fun lowest tx => if tx.nonce < lowest then tx.nonce else lowest) n = n ∨ ∃ x ∈ txs,
        x.nonce = txs.foldl (fun lowest tx => if tx.nonce < lowest then tx.nonce else lowest) n := by
  induction txs generalizing n with
  | nil => exact .inl rfl
  | cons y txs ih =>
    rw [foldl_cons]
    rcases ih (if y.nonce < n then y.nonce else n) with same | ⟨x, hx, hn⟩
    · rw [same]
      by_cases hlt : y.nonce < n
      · exact .inr ⟨y, mem_cons_self, (if_pos hlt).symm⟩
      · exact .inl (if_neg hlt)
    · exact .inr ⟨x, mem_cons_of_mem y hx, hn⟩

theorem lowestNonce_le {txs : List Transaction} {x : Transaction} (hx : x ∈ txs) :
    lowestNonce txs ≤ x.nonce := (lowestNonce_foldl_le txs _).2 x hx

theorem exists_lowestNonce {txs : List Transaction} (hne : txs ≠ []) :
    ∃ x ∈ txs, x.nonce = lowestNonce txs := by
  rcases lowestNonce_foldl_mem txs (2 ^ 64 - 1) with same | found
  · obtain ⟨x, hx⟩ := exists_mem_of_ne_nil txs hne
    have below := lowestNonce_le hx
    have bound := x.nonce_lt
    refine ⟨x, hx, ?_⟩
    unfold lowestNonce at below ⊢
    omega
  · exact found

theorem mem_filter_strict (strict : l.strict = true) {costLimit : ℤ} {gasLimit : UInt64}
    {x : Transaction} : x ∈ (l.filter costLimit gasLimit).2.2.txs ↔
      x ∈ l.txs ∧ ∀ y ∈ l.txs, y.nonce ≤ x.nonce → exceeds costLimit gasLimit y = false := by
  by_cases low : l.costcap ≤ costLimit ∧ l.gascap ≤ gasLimit
  · have all_kept : (l.filter costLimit gasLimit).2.2 = l := by
      unfold filter
      rw [if_pos low]
    have none_exceeds (y : Transaction) (hy : y ∈ l.txs) : exceeds costLimit gasLimit y = false :=
      exceeds_of_mem_filter (all_kept.symm ▸ hy)
    rw [all_kept]
    exact ⟨fun hx => ⟨hx, fun y hy _ => none_exceeds y hy⟩, And.left⟩
  by_cases none_removed : (l.split (exceeds costLimit gasLimit)).1 = []
  · have none_exceeds (y : Transaction) (hy : y ∈ l.txs) : exceeds costLimit gasLimit y = false := by
      by_contra hexc
      have : y ∈ (l.split (exceeds costLimit gasLimit)).1 :=
        mem_split_fst.2 ⟨hy, Bool.not_eq_false _ ▸ hexc⟩
      rw [none_removed] at this
      exact nomatch this
    unfold filter
    rw [if_neg low]
    rw [if_neg fun h => h.2 none_removed]
    refine mem_split_snd.trans (and_congr_right fun hx => ?_)
    exact ⟨fun _ y hy _ => none_exceeds y hy, fun h => h x hx le_rfl⟩
  · unfold filter
    rw [if_neg low]
    rw [if_pos ⟨strict, none_removed⟩]
    refine mem_split_snd.trans ?_
    refine (and_congr_left fun _ => mem_split_snd).trans ?_
    rw [and_assoc]
    refine and_congr_right fun hx => ⟨?_, fun h => ?_⟩
    · rintro ⟨fits, before⟩ y hy hle
      by_contra hexc
      have lowest : lowestNonce (l.split (exceeds costLimit gasLimit)).1 ≤ y.nonce :=
        lowestNonce_le (mem_split_fst.2 ⟨hy, Bool.not_eq_false _ ▸ hexc⟩)
      have before := of_decide_eq_false before
      have same : y = x := eq_of_key hy hx (by omega)
      exact hexc (same ▸ fits)
    · refine ⟨h x hx le_rfl, decide_eq_false fun after => ?_⟩
      obtain ⟨y, hy, hlow⟩ := exists_lowestNonce none_removed
      obtain ⟨hy, hexc⟩ := mem_split_fst.1 hy
      exact Bool.false_ne_true ((h y hy (by omega)).symm.trans hexc)

theorem filter_lax (lax : l.strict = false) {costLimit : ℤ} {gasLimit : UInt64} :
    (l.filter costLimit gasLimit).2.1 = [] ∧ ∀ x, x ∈ (l.filter costLimit gasLimit).2.2.txs ↔
        x ∈ l.txs ∧ exceeds costLimit gasLimit x = false := by
  by_cases low : l.costcap ≤ costLimit ∧ l.gascap ≤ gasLimit
  · have all_kept : (l.filter costLimit gasLimit).2.2 = l := by
      unfold filter
      rw [if_pos low]
    refine ⟨by unfold filter; rw [if_pos low], fun x => ?_⟩
    rw [all_kept]
    exact ⟨fun hx => ⟨hx, exceeds_of_mem_filter (all_kept.symm ▸ hx)⟩, And.left⟩
  · have loose : ¬(l.strict = true ∧ (l.split (exceeds costLimit gasLimit)).1 ≠ []) := fun h =>
      Bool.false_ne_true (lax.symm.trans h.1)
    unfold filter
    rw [if_neg low]
    rw [if_neg loose]
    exact ⟨rfl, fun x => mem_split_snd⟩

theorem remove_of_mem {tx : Transaction} (htx : tx ∈ l.txs) :
    ∃ invalids rest, l.remove tx = some (invalids, rest) ∧ l.Parts (tx :: invalids) rest ∧
      (l.strict = true → (∀ x ∈ invalids, tx.nonce < x.nonce) ∧ ∀ x ∈ rest.txs, x.nonce < tx.nonce) ∧
      (l.strict = false → invalids = []) := by
  have only : (l.split fun t => t.nonce = tx.nonce).1.Perm [tx] := by
    have first := parts_split l fun t => t.nonce = tx.nonce
    have nodup : (l.split fun t => t.nonce = tx.nonce).1.Nodup :=
      first.txs.out_keys_ne.imp fun hne heq => hne (congrArg (fun t => t.nonce) heq)
    refine (perm_ext_iff_of_nodup nodup (nodup_singleton tx)).2 fun x => ?_
    rw [mem_singleton]
    refine mem_split_fst.trans ⟨fun ⟨hx, hn⟩ => ?_, ?_⟩
    · exact eq_of_key hx htx (of_decide_eq_true hn)
    · rintro rfl
      exact ⟨htx, decide_eq_true rfl⟩
  have first : l.Parts [tx] (l.split fun t => t.nonce = tx.nonce).2 :=
    (parts_split l fun t => t.nonce = tx.nonce).perm only.symm
  have here : l.overlaps tx = true := by
    unfold overlaps
    rw [get_eq_some_iff.2 ⟨htx, rfl⟩]
    rfl
  unfold remove
  rw [if_pos here]
  cases hstrict : l.strict with
  | true =>
    refine ⟨_, _, rfl, first.trans (parts_split _ _), fun _ => ⟨fun x hx => ?_, fun x hx => ?_⟩, nofun⟩
    · exact of_decide_eq_true (mem_split_fst.1 hx).2
    · obtain ⟨hx, hn⟩ := mem_split_snd.1 hx
      have other := of_decide_eq_false (mem_split_snd.1 hx).2
      have before := of_decide_eq_false hn
      omega
  | false =>
    exact ⟨_, _, rfl, first, nofun, fun _ => rfl⟩

theorem remove_of_free {tx : Transaction} (free : ∀ y ∈ l.txs, y.nonce ≠ tx.nonce) :
    l.remove tx = none := by
  unfold remove overlaps
  rw [get_eq_none_iff.2 free]
  rfl

theorem overlaps_iff {tx : Transaction} : l.overlaps tx ↔ ∃ y ∈ l.txs, y.nonce = tx.nonce := by
  unfold overlaps
  rw [Option.isSome_iff_exists]
  simp only [get_eq_some_iff]

theorem mem_put {tx y : Transaction} :
    y ∈ (l.put tx).txs ↔ y = tx ∨ y ∈ l.txs ∧ y.nonce ≠ tx.nonce := SortedMap.mem_put

theorem add_of_free {tx : Transaction} (free : ∀ y ∈ l.txs, y.nonce ≠ tx.nonce) (priceBump : UInt64) :
    l.add tx priceBump = some (l.put tx, none) := by
  unfold add
  rw [get_eq_none_iff.2 free]
  rfl

theorem add_of_held {tx old : Transaction} (held : old ∈ l.txs) (same : old.nonce = tx.nonce)
    (priceBump : UInt64) :
    l.add tx priceBump = if outbids priceBump old tx then none else some (l.put tx, some old) := by
  unfold add
  rw [get_eq_some_iff.2 ⟨held, same⟩]
  rfl

end TxList

/-! ## `txPricedList` -/

/-- `all`. -/
abbrev TxIndex := AList fun _ : Hash => Transaction

/-- `priceHeap.Less`: the cheaper one first, of equal prices the higher nonce. -/
def priceLess (a b : Transaction) : Bool :=
  a.gasPrice < b.gasPrice ∨ a.gasPrice = b.gasPrice ∧ b.nonce < a.nonce

structure TxPricedList where
  items : List Transaction
  stales : ℤ
  deriving DecidableEq

namespace TxPricedList

variable (l : TxPricedList)

/-- The transaction is still in `all`. -/
def live (all : TxIndex) (tx : Transaction) : Bool := (all.lookup tx.hash).isSome

def put (tx : Transaction) : TxPricedList :=
  { l with items := Heap.push priceLess l.items tx }

/-- `Removed`; the heap is built anew when a quarter of it is stale. -/
def removed (pooled : List Transaction) : TxPricedList :=
  if l.stales + 1 ≤ (l.items.length / 4 : ℕ) then { l with stales := l.stales + 1 }
  else ⟨Heap.init priceLess pooled, 0⟩

/-- The loop of `Underpriced` that takes stale entries from the top. -/
def dropStale (all : TxIndex) : ℕ → TxPricedList → TxPricedList
  | 0, l => l
  | fuel + 1, l =>
    if l.items.head?.any fun head => !live all head then
      dropStale all fuel
        ⟨((Heap.pop priceLess l.items).map (·.2)).getD [], l.stales - 1⟩
    else l

/-- `Underpriced`; `isLocal` is `containsTx` of the local accounts. -/
def underpriced (all : TxIndex) (isLocal : Transaction → Bool) (tx : Transaction) :
    TxPricedList × Bool :=
  if isLocal tx then (l, false)
  else
    let l := dropStale all l.items.length l
    (l, l.items.head?.any fun cheapest => tx.gasPrice ≤ cheapest.gasPrice)

/-- The heap while entries are taken out of it. -/
structure Taking where
  items : List Transaction
  stales : ℤ
  drop : List Transaction
  save : List Transaction

/-- The loop of `Discard`. -/
def discardLoop (all : TxIndex) (isLocal : Transaction → Bool) : ℕ → ℤ → Taking → Taking
  | 0, _, t => t
  | fuel + 1, count, t =>
    if count ≤ 0 then t
    else match Heap.pop priceLess t.items with
      | none => t
      | some (tx, items) =>
        if !live all tx then
          discardLoop all isLocal fuel count { t with items := items, stales := t.stales - 1 }
        else if isLocal tx then
          discardLoop all isLocal fuel count { t with items := items, save := t.save ++ [tx] }
        else
          discardLoop all isLocal fuel (count - 1) { t with items := items, drop := t.drop ++ [tx] }

/-- The loop of `Cap`. -/
def capLoop (all : TxIndex) (isLocal : Transaction → Bool) (threshold : ℤ) : ℕ → Taking → Taking
  | 0, t => t
  | fuel + 1, t =>
    match Heap.pop priceLess t.items with
    | none => t
    | some (tx, items) =>
      if !live all tx then
        capLoop all isLocal threshold fuel { t with items := items, stales := t.stales - 1 }
      else if threshold ≤ tx.gasPrice then { t with items := items, save := t.save ++ [tx] }
      else if isLocal tx then
        capLoop all isLocal threshold fuel { t with items := items, save := t.save ++ [tx] }
      else
        capLoop all isLocal threshold fuel { t with items := items, drop := t.drop ++ [tx] }

/-- The saved transactions are put back. -/
def Taking.finish (t : Taking) : TxPricedList × List Transaction :=
  (⟨t.save.foldl (Heap.push priceLess) t.items, t.stales⟩, t.drop)

def discard (all : TxIndex) (isLocal : Transaction → Bool) (count : ℤ) :
    TxPricedList × List Transaction :=
  (discardLoop all isLocal l.items.length count ⟨l.items, l.stales, [], []⟩).finish

def cap (all : TxIndex) (isLocal : Transaction → Bool) (threshold : ℤ) :
    TxPricedList × List Transaction :=
  (capLoop all isLocal threshold l.items.length ⟨l.items, l.stales, [], []⟩).finish

end TxPricedList

end JuChain.Pool
