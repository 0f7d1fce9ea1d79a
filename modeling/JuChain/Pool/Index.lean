import JuChain.Pool.Reset
import Mathlib.Data.Set.Insert

/-!
# The index of the pool

`View` keeps of a pool which transactions are where.  While the code moves transactions from one
list to another, the ones it has in hand are `loose`.  Four moves keep the index: `take`, `drop`,
`put` and `accept`.
-/

namespace JuChain.Pool

open List Function Option

/-! ## Views -/

/-- Pending or queue. -/
inductive Place
  | pending
  | queue
  deriving DecidableEq

/-- The lists and the index of a pool. -/
@[ext] structure View where
  lists : Place → Address → Set Transaction
  all : Hash → Option Transaction

namespace View

variable (v : View)

/-- Set the transactions of an account. -/
def set (q : Place) (a : Address) (txs : Set Transaction) : View :=
  { v with lists := Function.update v.lists q (Function.update (v.lists q) a txs) }

/-- Erase a hash from the index. -/
def erase (h : Hash) : View := { v with all := Function.update v.all h none }

/-- Put a transaction into the index. -/
def record (tx : Transaction) : View :=
  { v with all := Function.update v.all tx.hash (some tx) }

theorem mem_set {v : View} {q q' : Place} {a b : Address} {txs : Set Transaction} {tx : Transaction} :
    tx ∈ (v.set q a txs).lists q' b ↔
      q' = q ∧ b = a ∧ tx ∈ txs ∨ (q' = q → b ≠ a) ∧ tx ∈ v.lists q' b := by
  by_cases hq : q' = q
  · subst hq
    by_cases hb : b = a
    · subst hb
      simp [set]
    · simp [set, hb]
  · simp [set, hq]

theorem lists_set_self (q : Place) (a : Address) (txs : Set Transaction) :
    (v.set q a txs).lists q a = txs := by
  show update v.lists q (update (v.lists q) a txs) q a = txs
  rw [update_self, update_self]

theorem set_set (q : Place) (a : Address) (txs txs' : Set Transaction) :
    (v.set q a txs).set q a txs' = v.set q a txs' := by
  unfold set
  dsimp only
  rw [update_self, update_idem, update_idem]

/-- The transaction is in a list, or loose. -/
def Held (loose : List Transaction) (tx : Transaction) : Prop :=
  (∃ q a, tx ∈ v.lists q a) ∨ tx ∈ loose

/-- `all` lists exactly the held transactions, each in one place, and no two have one sender and
nonce. -/
structure Indexed (v : View) (loose : List Transaction) : Prop where
  mem_all : ∀ h tx, v.all h = some tx ↔ tx.hash = h ∧ v.Held loose tx
  sender : ∀ {q a tx}, tx ∈ v.lists q a → tx.sender = some a
  slots : ∀ {x y}, v.Held loose x → v.Held loose y → x.sender = y.sender → x.nonce = y.nonce → x = y
  place : ∀ {q q' a b tx}, tx ∈ v.lists q a → tx ∈ v.lists q' b → q = q'
  loose_sender : ∀ {tx}, tx ∈ loose → ∃ a, tx.sender = some a
  loose_out : ∀ {tx}, tx ∈ loose → ∀ q a, tx ∉ v.lists q a
  nodup : loose.Nodup

namespace Indexed

variable {v : View} {loose : List Transaction} {tx : Transaction} {q : Place} {a : Address}

theorem eq_of_hash (h : Indexed v loose) {x y : Transaction} (hx : v.Held loose x)
    (hy : v.Held loose y) (hash : x.hash = y.hash) : x = y :=
  some.inj (((h.mem_all _ x).2 ⟨hash, hx⟩).symm.trans ((h.mem_all _ y).2 ⟨rfl, hy⟩))

theorem perm (h : Indexed v loose) {loose' : List Transaction} (perm : loose'.Perm loose) :
    Indexed v loose' := by
  have held (tx : Transaction) : v.Held loose' tx ↔ v.Held loose tx := by
    unfold Held
    rw [perm.mem_iff]
  exact
    { h with
      mem_all := fun hash tx => by rw [held]; exact h.mem_all hash tx
      slots := fun hx hy => h.slots ((held _).1 hx) ((held _).1 hy)
      loose_sender := fun htx => h.loose_sender (perm.subset htx)
      loose_out := fun htx => h.loose_out (perm.subset htx)
      nodup := perm.nodup_iff.2 h.nodup }

theorem take (h : Indexed v loose) {out : List Transaction} {rest : Set Transaction}
    (parts : ∀ x, x ∈ v.lists q a ↔ x ∈ out ∨ x ∈ rest) (apart : ∀ x ∈ out, x ∉ rest)
    (nodup : out.Nodup) : Indexed (v.set q a rest) (out ++ loose) := by
  have sub {q' : Place} {b : Address} {x : Transaction}
      (hx : x ∈ (v.set q a rest).lists q' b) : x ∈ v.lists q' b := by
    rcases mem_set.1 hx with ⟨rfl, rfl, left⟩ | ⟨-, other⟩
    · exact (parts x).2 (.inr left)
    · exact other
  have held (x : Transaction) : (v.set q a rest).Held (out ++ loose) x ↔ v.Held loose x := by
    constructor
    · rintro (⟨q', b, hx⟩ | hx)
      · exact .inl ⟨q', b, sub hx⟩
      · rcases mem_append.1 hx with hx | hx
        · exact .inl ⟨q, a, (parts x).2 (.inl hx)⟩
        · exact .inr hx
    · rintro (⟨q', b, hx⟩ | hx)
      · by_cases here : q' = q ∧ b = a
        · obtain ⟨rfl, rfl⟩ := here
          rcases (parts x).1 hx with hx | hx
          · exact .inr (mem_append.2 (.inl hx))
          · exact .inl ⟨q', b, mem_set.2 (.inl ⟨rfl, rfl, hx⟩)⟩
        · exact .inl ⟨q', b, mem_set.2 (.inr ⟨fun hq hb => here ⟨hq, hb⟩, hx⟩)⟩
      · exact .inr (mem_append.2 (.inr hx))
  exact
    { mem_all := fun hash x => by rw [held]; exact h.mem_all hash x
      sender := fun hx => h.sender (sub hx)
      slots := fun hx hy => h.slots ((held _).1 hx) ((held _).1 hy)
      place := fun hx hy => h.place (sub hx) (sub hy)
      loose_sender := fun hx => by
        rcases mem_append.1 hx with hx | hx
        · exact ⟨a, h.sender ((parts _).2 (.inl hx))⟩
        · exact h.loose_sender hx
      loose_out := fun {x} hx q' b hin => by
        rcases mem_append.1 hx with hx | hx
        · -- It was in this list only, and is no longer there.
          have here := (parts x).2 (.inl hx)
          rcases mem_set.1 hin with ⟨rfl, rfl, left⟩ | ⟨elsewhere, other⟩
          · exact apart x hx left
          · obtain rfl := h.place other here
            exact elsewhere rfl (some.inj ((h.sender other).symm.trans (h.sender here)))
        · exact h.loose_out hx q' b (sub hin)
      nodup := nodup_append.2 ⟨nodup, h.nodup, fun x hx y hy => by
        rintro rfl
        exact h.loose_out hy q a ((parts x).2 (.inl hx))⟩ }

theorem drop (h : Indexed v (tx :: loose)) : Indexed (v.erase tx.hash) loose := by
  obtain ⟨fresh, nodup⟩ := nodup_cons.1 h.nodup
  have held (x : Transaction) : (v.erase tx.hash).Held loose x ↔ v.Held (tx :: loose) x ∧ x ≠ tx := by
    constructor
    · rintro (⟨q, b, hx⟩ | hx)
      · refine ⟨.inl ⟨q, b, hx⟩, ?_⟩
        rintro rfl
        exact h.loose_out mem_cons_self q b hx
      · refine ⟨.inr (mem_cons_of_mem tx hx), ?_⟩
        rintro rfl
        exact fresh hx
    · rintro ⟨⟨q, b, hx⟩ | hx, hne⟩
      · exact .inl ⟨q, b, hx⟩
      · exact .inr ((mem_cons.1 hx).resolve_left hne)
  have mine : v.Held (tx :: loose) tx := .inr mem_cons_self
  exact
    { mem_all := fun hash x => by
        rw [held]
        show update v.all tx.hash none hash = some x ↔ _
        by_cases hh : hash = tx.hash
        · subst hh
          rw [update_self]
          refine iff_of_false nofun ?_
          rintro ⟨hash, hx, hne⟩
          exact hne (h.eq_of_hash hx mine hash)
        · rw [update_of_ne hh, h.mem_all]
          refine and_congr_right fun hash => ⟨fun hx => ⟨hx, ?_⟩, fun hx => hx.1⟩
          rintro rfl
          exact hh hash.symm
      sender := h.sender
      slots := fun hx hy => h.slots ((held _).1 hx).1 ((held _).1 hy).1
      place := h.place
      loose_sender := fun hx => h.loose_sender (mem_cons_of_mem tx hx)
      loose_out := fun hx => h.loose_out (mem_cons_of_mem tx hx)
      nodup := nodup }

theorem put (h : Indexed v (tx :: loose)) (sender : tx.sender = some a) :
    Indexed (v.set q a (Insert.insert tx (v.lists q a))) loose := by
  obtain ⟨fresh, nodup⟩ := nodup_cons.1 h.nodup
  have mem {q' : Place} {b : Address} {x : Transaction} :
      x ∈ (v.set q a (Insert.insert tx (v.lists q a))).lists q' b ↔
        q' = q ∧ b = a ∧ x = tx ∨ x ∈ v.lists q' b := by
    rw [mem_set, Set.mem_insert_iff]
    by_cases here : q' = q ∧ b = a
    · obtain ⟨rfl, rfl⟩ := here
      simp
    · have elsewhere : q' = q → b ≠ a := fun hq hb => here ⟨hq, hb⟩
      constructor
      · rintro (⟨hq, hb, -⟩ | ⟨-, hx⟩)
        · exact absurd ⟨hq, hb⟩ here
        · exact .inr hx
      · rintro (⟨hq, hb, -⟩ | hx)
        · exact absurd ⟨hq, hb⟩ here
        · exact .inr ⟨elsewhere, hx⟩
  have held (x : Transaction) :
      (v.set q a (Insert.insert tx (v.lists q a))).Held loose x ↔ v.Held (tx :: loose) x := by
    constructor
    · rintro (⟨q', b, hx⟩ | hx)
      · rcases mem.1 hx with ⟨-, -, rfl⟩ | hx
        · exact .inr mem_cons_self
        · exact .inl ⟨q', b, hx⟩
      · exact .inr (mem_cons_of_mem tx hx)
    · rintro (⟨q', b, hx⟩ | hx)
      · exact .inl ⟨q', b, mem.2 (.inr hx)⟩
      · rcases mem_cons.1 hx with rfl | hx
        · exact .inl ⟨q, a, mem.2 (.inl ⟨rfl, rfl, rfl⟩)⟩
        · exact .inr hx
  have out := h.loose_out mem_cons_self
  exact
    { mem_all := fun hash x => by rw [held]; exact h.mem_all hash x
      sender := fun hx => by
        rcases mem.1 hx with ⟨-, rfl, rfl⟩ | hx
        · exact sender
        · exact h.sender hx
      slots := fun hx hy => h.slots ((held _).1 hx) ((held _).1 hy)
      place := fun hx hy => by
        rcases mem.1 hx with ⟨rfl, -, rfl⟩ | other
        · rcases mem.1 hy with ⟨rfl, -, -⟩ | other
          · rfl
          · exact absurd other (out _ _)
        · rcases mem.1 hy with ⟨rfl, -, rfl⟩ | other'
          · exact absurd other (out _ _)
          · exact h.place other other'
      loose_sender := fun hx => h.loose_sender (mem_cons_of_mem tx hx)
      loose_out := fun {x} hx q' b hin => by
        rcases mem.1 hin with ⟨-, -, rfl⟩ | hin
        · exact fresh hx
        · exact h.loose_out (mem_cons_of_mem tx hx) q' b hin
      nodup := nodup }

theorem accept (h : Indexed v loose) (sender : tx.sender = some a) (unknown : v.all tx.hash = none)
    (free : ∀ x, v.Held loose x → x.sender = tx.sender → x.nonce ≠ tx.nonce) :
    Indexed (v.record tx) (tx :: loose) := by
  have new : ¬v.Held loose tx := fun hx => free tx hx rfl rfl
  have held (x : Transaction) : (v.record tx).Held (tx :: loose) x ↔ x = tx ∨ v.Held loose x := by
    unfold Held
    rw [mem_cons, or_left_comm]
    rfl
  exact
    { mem_all := fun hash x => by
        rw [held]
        show update v.all tx.hash (some tx) hash = some x ↔ _
        by_cases hh : hash = tx.hash
        · subst hh
          rw [update_self, some.injEq]
          constructor
          · rintro rfl
            exact ⟨rfl, .inl rfl⟩
          · rintro ⟨hash, rfl | hx⟩
            · rfl
            · exact nomatch unknown.symm.trans ((h.mem_all _ x).2 ⟨hash, hx⟩)
        · rw [update_of_ne hh, h.mem_all]
          refine and_congr_right fun hash => ⟨.inr, ?_⟩
          rintro (rfl | hx)
          · exact absurd hash.symm hh
          · exact hx
      sender := h.sender
      slots := fun hx hy hs hn => by
        rcases (held _).1 hx with rfl | old
        · rcases (held _).1 hy with rfl | old'
          · rfl
          · exact absurd hn.symm (free _ old' hs.symm)
        · rcases (held _).1 hy with rfl | old'
          · exact absurd hn (free _ old hs)
          · exact h.slots old old' hs hn
      place := h.place
      loose_sender := fun hx => by
        rcases mem_cons.1 hx with rfl | hx
        · exact ⟨a, sender⟩
        · exact h.loose_sender hx
      loose_out := fun hx q b hin => by
        rcases mem_cons.1 hx with rfl | hx
        · exact new (.inl ⟨q, b, hin⟩)
        · exact h.loose_out hx q b hin
      nodup := nodup_cons.2 ⟨fun hx => new (.inr hx), h.nodup⟩ }

theorem swap (h : Indexed v []) (sender : tx.sender = some a) (unknown : v.all tx.hash = none)
    {old : Transaction} (held : old ∈ v.lists q a) (same : old.nonce = tx.nonce) :
    Indexed (((v.erase old.hash).record tx).set q a
      (Insert.insert tx { x | x ∈ v.lists q a ∧ x.nonce ≠ tx.nonce })) [] := by
  have only {x : Transaction} (hx : v.Held [] x) (hsender : x.sender = tx.sender)
      (hn : x.nonce = tx.nonce) : x = old :=
    h.slots hx (.inl ⟨q, a, held⟩) (hsender.trans (sender.trans (h.sender held).symm))
      (hn.trans same.symm)
  have taken : Indexed (v.set q a { x | x ∈ v.lists q a ∧ x.nonce ≠ tx.nonce }) ([old] ++ []) := by
    refine h.take (fun x => ?_) (fun x hx hrest => ?_) (nodup_singleton old)
    · rw [mem_singleton]
      constructor
      · intro hx
        by_cases hn : x.nonce = tx.nonce
        · exact .inl (only (.inl ⟨q, a, hx⟩) ((h.sender hx).trans sender.symm) hn)
        · exact .inr ⟨hx, hn⟩
      · rintro (rfl | hx)
        · exact held
        · exact hx.1
    · rw [mem_singleton.1 hx] at hrest
      exact hrest.2 same
  have dropped := taken.drop
  have free (x : Transaction)
      (hx : ((v.set q a { x | x ∈ v.lists q a ∧ x.nonce ≠ tx.nonce }).erase old.hash).Held [] x)
      (hsender : x.sender = tx.sender) : x.nonce ≠ tx.nonce := by
    intro hn
    -- It was held before, so it is the old one, whose hash is gone.
    have listed := (dropped.mem_all x.hash x).2 ⟨rfl, hx⟩
    obtain ⟨q', b, hin⟩ := hx.resolve_right not_mem_nil
    have before : x ∈ v.lists q' b := by
      rcases mem_set.1 hin with ⟨rfl, rfl, hx⟩ | ⟨-, hx⟩
      · exact hx.1
      · exact hx
    obtain rfl := only (.inl ⟨q', b, before⟩) hsender hn
    have gone : update v.all x.hash none x.hash = some x := listed
    rw [update_self] at gone
    exact nomatch gone
  have unknown' : ((v.set q a { x | x ∈ v.lists q a ∧ x.nonce ≠ tx.nonce }).erase old.hash).all
      tx.hash = none := by
    show update v.all old.hash none tx.hash = none
    by_cases hh : tx.hash = old.hash
    · rw [hh, update_self]
    · rw [update_of_ne hh, unknown]
  have put := (dropped.accept sender unknown' free).put (q := q) sender
  rw [show (((v.set q a { x | x ∈ v.lists q a ∧ x.nonce ≠ tx.nonce }).erase old.hash).record
    tx).lists q a = _ from lists_set_self v q a _] at put
  rw [← set_set ((v.erase old.hash).record tx) q a { x | x ∈ v.lists q a ∧ x.nonce ≠ tx.nonce }]
  exact put

end Indexed

end View

end JuChain.Pool
