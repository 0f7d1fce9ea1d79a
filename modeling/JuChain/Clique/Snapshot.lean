import JuChain.Clique.Seal

/-!
# Voting snapshots

`consensus/solo/snapshot.go`, and the part of `Clique.verifySeal` that follows the retrieval of the
snapshot. `Tally` is only read at single addresses and is a function.

`apply` removes the entry that the new block shifts out before it looks for the signer among the
recent ones; `verifySeal` subtracts the limit from the number as unsigned integers.
-/

namespace JuChain.Clique

open JuChain.Types

/-- The cache of recovered signers. -/
abbrev SigCache := Hash → Option Address

def ecrecover (C : Crypto) (sigcache : SigCache) (h : Types.Header) : Except Err Address × SigCache :=
  match sigcache (h.hash C.keccak) with
  | some a => (.ok a, sigcache)
  | none =>
    match recover C h with
    | .error e => (.error e, sigcache)
    | .ok a => (.ok a, Function.update sigcache (h.hash C.keccak) (some a))

/-- The entries of the cache are what would be recovered. -/
def Faithful (C : Crypto) (sigcache : SigCache) : Prop :=
  ∀ h a, sigcache (Types.Header.hash C.keccak h) = some a → recover C h = .ok a

/-! ## Snapshots -/

structure Vote where
  signer : Address
  block : UInt64
  address : Address
  authorize : Bool
  deriving DecidableEq

structure Tally where
  authorize : Bool
  votes : ℕ
  deriving DecidableEq

/-- `config.CliqueConfig` as `New` leaves it: the epoch is not zero. -/
structure Config where
  epoch : UInt64
  epoch_ne : epoch ≠ 0

structure Snapshot where
  config : Config
  number : UInt64
  hash : Hash
  signers : Finset Address
  recents : List (UInt64 × Address)
  votes : List Vote
  tally : Address → Option Tally

/-- The nonce of a vote for an address. -/
def nonceAuthVote : BlockNonce := 0xffffffffffffffff

/-- The nonce of a vote against an address. -/
def nonceDropVote : BlockNonce := 0

/-- The difficulty of a signer in turn. -/
def diffInTurn : ℤ := 2

/-- The difficulty of a signer out of turn. -/
def diffNoTurn : ℤ := 1

/-- `header.Number.Uint64()`; a nil number crashes. -/
def headerNumber (h : Types.Header) : Except (Fault Err) UInt64 :=
  h.number.elim (.error .panic) fun i => .ok (uint64 i)

namespace Snapshot

variable (s : Snapshot)

/-- `newSnapshot`. -/
def new (config : Config) (number : UInt64) (hash : Hash) (signers : List Address) : Snapshot where
  config := config
  number := number
  hash := hash
  signers := signers.toFinset
  recents := []
  votes := []
  tally := fun _ => none

/-- A signer waits for so many blocks. -/
def limit : ℕ := s.signers.card / 2 + 1

/-- `delete(s.Recents, seen)`. -/
def forget (seen : UInt64) : Snapshot := { s with recents := s.recents.filter fun e => e.1 ≠ seen }

/-- `s.Recents[seen] = signer`. -/
def remember (seen : UInt64) (signer : Address) : Snapshot :=
  { s with recents := (seen, signer) :: (s.forget seen).recents }

/-- `if limit := uint64(len(Signers)/2 + 1); number >= limit { delete(Recents, number-limit) }` -/
def shiftOut (number : UInt64) : Snapshot :=
  if s.limit ≤ number.toNat then s.forget (UInt64.ofNat (number.toNat - s.limit)) else s

/-- `Snapshot.validVote`. -/
def validVote (address : Address) (authorize : Bool) : Bool :=
  (address ∈ s.signers ∧ authorize = false) ∨ (address ∉ s.signers ∧ authorize = true)

/-- `Snapshot.cast`. -/
def cast (address : Address) (authorize : Bool) : Bool × Snapshot :=
  if s.validVote address authorize = false then (false, s)
  else
    let new := (s.tally address).elim ⟨authorize, 1⟩ fun old => { old with votes := old.votes + 1 }
    (true, { s with tally := Function.update s.tally address (some new) })

/-- `Snapshot.uncast`. -/
def uncast (address : Address) (authorize : Bool) : Snapshot :=
  match s.tally address with
  | none => s
  | some t =>
    if t.authorize ≠ authorize then s
    else if 1 < t.votes then
      { s with tally := Function.update s.tally address (some { t with votes := t.votes - 1 }) }
    else { s with tally := Function.update s.tally address none }

/-- The previous vote of the signer on the address is discarded. -/
def discardPrevious (signer address : Address) : Snapshot :=
  match s.votes.find? fun v => v.signer = signer ∧ v.address = address with
  | none => s
  | some v =>
    let s' := s.uncast v.address v.authorize
    { s' with votes := s.votes.eraseP fun v => v.signer = signer ∧ v.address = address }

/-- The votes of a dropped signer are discarded. -/
def discardCast (signer : Address) : Snapshot :=
  let s' :=
    (s.votes.filter fun v => v.signer = signer).foldl (fun s v => s.uncast v.address v.authorize) s
  { s' with votes := s.votes.filter fun v => v.signer ≠ signer }

/-- The votes on an address are discarded. -/
def discardOn (address : Address) : Snapshot :=
  { s with votes := s.votes.filter fun v => v.address ≠ address }

/-- The vote in a nonce. -/
def authorizes (nonce : BlockNonce) : Except (Fault Err) Bool :=
  if nonce = nonceAuthVote then .ok true
  else if nonce = nonceDropVote then .ok false
  else .error (.err .invalidVote)

/-- A majority seats or drops the address. -/
def settle (number : UInt64) (coinbase : Address) : Snapshot :=
  match s.tally coinbase with
  | none => s
  | some t =>
    if t.votes ≤ s.signers.card / 2 then s
    else
      let s' := if t.authorize then { s with signers := insert coinbase s.signers }
        else
          ((({ s with signers := s.signers.erase coinbase } : Snapshot).shiftOut number).discardCast
            coinbase)
      { s'.discardOn coinbase with
        tally := Function.update (s'.discardOn coinbase).tally coinbase none }

/-- What the loop body of `apply` does for a signer who may sign. -/
def tallyUp (number : UInt64) (signer coinbase : Address) (authorize : Bool) : Snapshot :=
  let counted := s.cast coinbase authorize
  let voted := if counted.1 then { counted.2 with votes := counted.2.votes ++
    [⟨signer, number, coinbase, authorize⟩] } else counted.2
  voted.settle number coinbase

/-- The votes are removed on checkpoint blocks. -/
def checkpoint (number : UInt64) : Snapshot :=
  if number % s.config.epoch = 0 then { s with votes := [], tally := fun _ => none } else s

/-- One round of the loop of `Snapshot.apply`. -/
def applyHeader (C : Crypto) (s : Snapshot) (sigcache : SigCache) (h : Types.Header) :
    Except (Fault Err) (Snapshot × SigCache) := do
  let number ← headerNumber h
  let s := (s.checkpoint number).shiftOut number
  let signer ← (ecrecover C sigcache h).1.mapError .err
  if signer ∉ s.signers then .error (.err .unauthorized)
  else if signer ∈ s.recents.map Prod.snd then .error (.err .unauthorized)
  else
    let s := (s.remember number signer).discardPrevious signer h.coinbase
    let authorize ← authorizes h.nonce
    .ok (s.tallyUp number signer h.coinbase authorize, (ecrecover C sigcache h).2)

/-- The loop of `Snapshot.apply`. -/
def applyLoop (C : Crypto) (s : Snapshot) (sigcache : SigCache) :
    List Types.Header → Except (Fault Err) (Snapshot × SigCache)
  | [] => .ok (s, sigcache)
  | h :: hs => do
    let (s, sigcache) ← s.applyHeader C sigcache h
    s.applyLoop C sigcache hs

/-- The check that every header has the number after its predecessor's. -/
def checkPairs : List Types.Header → Except (Fault Err) Unit
  | a :: b :: hs => do
    let next ← headerNumber b
    let number ← headerNumber a
    if next ≠ number + 1 then .error (.err .invalidVotingChain) else checkPairs (b :: hs)
  | _ => .ok ()

/-- `Snapshot.apply`. -/
def apply (C : Crypto) (s : Snapshot) (sigcache : SigCache) :
    List Types.Header → Except (Fault Err) (Snapshot × SigCache)
  | [] => .ok (s, sigcache)
  | h :: hs => do
    checkPairs (h :: hs)
    let first ← headerNumber h
    if first ≠ s.number + 1 then .error (.err .invalidVotingChain)
    else
      let (snap, sigcache) ← s.applyLoop C sigcache (h :: hs)
      .ok ({ snap with
        number := s.number + UInt64.ofNat (h :: hs).length
        hash := ((h :: hs).getLast (List.cons_ne_nil h hs)).hash C.keccak }, sigcache)

/-- The position of a signer in the sorted `signers()`: how many are smaller. -/
def offset (signer : Address) : ℕ :=
  if signer ∈ s.signers then (s.signers.filter fun a => a.toNat < signer.toNat).card else s.signers.card

/-- `Snapshot.inturn`. -/
def inturn (number : UInt64) (signer : Address) : Bool :=
  number.toNat % s.signers.card = s.offset signer

end Snapshot

/-- `verifySeal` after the snapshot was retrieved. -/
def verifySeal (C : Crypto) (s : Snapshot) (sigcache : SigCache) (h : Types.Header) :
    Except (Fault Err) SigCache := do
  let number ← headerNumber h
  if number = 0 then .error (.err .unknownBlock)
  else
    let signer ← (ecrecover C sigcache h).1.mapError .err
    if signer ∉ s.signers then .error (.err .unauthorized)
    -- the limit is subtracted from the number modulo two to the 64
    else if ∃ e ∈ s.recents, e.2 = signer ∧ number - UInt64.ofNat s.limit <
      e.1 then .error (.err .unauthorized)
    else
      let difficulty ← h.difficulty.elim (.error .panic) Except.ok
      if s.inturn number signer ∧ difficulty ≠ diffInTurn then .error (.err .invalidDifficulty)
      else if ¬ s.inturn number signer ∧ difficulty ≠ diffNoTurn then .error (.err .invalidDifficulty)
      else .ok (ecrecover C sigcache h).2

section Cache

variable {C : Crypto} {sigcache : SigCache} {h : Types.Header}

theorem Faithful.ecrecover_eq (hc : Faithful C sigcache) :
    (ecrecover C sigcache h).1 = recover C h := by
  unfold ecrecover
  cases hit : sigcache (h.hash C.keccak) with
  | some a => exact (hc h a hit).symm
  | none => cases hr : recover C h <;> rfl

end Cache

/-! ## Signers and recent signers -/

namespace Snapshot

/-- The same signers, with the same recent blocks. -/
def SameSeats (s t : Snapshot) : Prop := t.signers = s.signers ∧ t.recents = s.recents

/-- The recent signers signed at most `m`, and less than `limit` blocks ago. -/
def Recent (m : ℕ) (s : Snapshot) : Prop := ∀ e ∈ s.recents, e.1.toNat ≤ m ∧ m < e.1.toNat + s.limit

section Seats

variable {s t u : Snapshot} {m : ℕ}

theorem SameSeats.refl (s : Snapshot) : s.SameSeats s := ⟨rfl, rfl⟩

theorem SameSeats.trans (h : s.SameSeats t) (h' : t.SameSeats u) : s.SameSeats u :=
  ⟨h'.1.trans h.1, h'.2.trans h.2⟩

theorem SameSeats.limit_eq (h : s.SameSeats t) : t.limit = s.limit := by rw [limit, limit, h.1]

theorem SameSeats.recent (h : s.SameSeats t) (hr : s.Recent m) : t.Recent m := by
  unfold Recent
  rw [h.2, h.limit_eq]
  exact hr

theorem SameSeats.shiftOut (h : s.SameSeats t) (n : UInt64) :
    (s.shiftOut n).SameSeats (t.shiftOut n) := by
  unfold Snapshot.shiftOut
  rw [h.limit_eq]
  split_ifs
  · exact ⟨h.1, by rw [forget, forget, h.2]⟩
  · exact h

theorem sameSeats_checkpoint (s : Snapshot) (n : UInt64) : s.SameSeats (s.checkpoint n) := by
  unfold checkpoint
  split_ifs <;> exact ⟨rfl, rfl⟩

theorem sameSeats_uncast (s : Snapshot) (a : Address) (b : Bool) : s.SameSeats (s.uncast a b) := by
  unfold uncast
  split
  · exact .refl s
  · split_ifs <;> exact ⟨rfl, rfl⟩

theorem sameSeats_cast (s : Snapshot) (a : Address) (b : Bool) : s.SameSeats (s.cast a b).2 := by
  unfold cast
  split_ifs <;> exact ⟨rfl, rfl⟩

theorem sameSeats_discardPrevious (s : Snapshot) (signer a : Address) :
    s.SameSeats (s.discardPrevious signer a) := by
  unfold discardPrevious
  split
  · exact .refl s
  · exact (sameSeats_uncast s _ _).trans ⟨rfl, rfl⟩

theorem sameSeats_foldl_uncast (vs : List Vote) (s : Snapshot) :
    s.SameSeats (vs.foldl (fun s v => s.uncast v.address v.authorize) s) := by
  induction vs generalizing s with
  | nil => exact .refl s
  | cons v vs ih => exact (sameSeats_uncast s _ _).trans (ih _)

theorem sameSeats_discardCast (s : Snapshot) (signer : Address) : s.SameSeats (s.discardCast signer) :=
  (sameSeats_foldl_uncast _ s).trans ⟨rfl, rfl⟩

theorem signers_shiftOut (s : Snapshot) (n : UInt64) : (s.shiftOut n).signers = s.signers := by
  unfold shiftOut
  split_ifs <;> rfl

theorem limit_shiftOut (s : Snapshot) (n : UInt64) : (s.shiftOut n).limit = s.limit := by
  rw [limit, limit, signers_shiftOut]

variable {n : UInt64}

theorem mem_shiftOut {e : UInt64 × Address} :
    e ∈ (s.shiftOut n).recents ↔ e ∈ s.recents ∧ e.1.toNat + s.limit ≠ n.toNat := by
  have lt := n.toNat_lt
  unfold shiftOut
  split_ifs with hl
  · rw [forget, List.mem_filter, decide_eq_true_eq]
    refine and_congr_right fun _ => not_congr ?_
    rw [← UInt64.toNat_inj, UInt64.toNat_ofNat', Nat.mod_eq_of_lt (by omega)]
    omega
  · constructor
    · exact fun he => ⟨he, by omega⟩
    · exact And.left

theorem Recent.shiftOut (h : s.Recent m) (hn : n.toNat = m + 1) : (s.shiftOut n).Recent (m + 1) := by
  intro e he
  obtain ⟨he, ne⟩ := mem_shiftOut.1 he
  obtain ⟨le, lt⟩ := h e he
  rw [limit_shiftOut]
  omega

theorem Recent.remember (h : s.Recent n.toNat) (signer : Address) :
    (s.remember n signer).Recent n.toNat := by
  intro e he
  rcases List.mem_cons.1 he with rfl | he
  · exact ⟨le_rfl, Nat.lt_add_of_pos_right (Nat.succ_pos _)⟩
  · exact h e (List.mem_of_mem_filter he)

theorem Recent.enrol (h : s.Recent m) (a : Address) :
    ({ s with signers := insert a s.signers } : Snapshot).Recent m := by
  intro e he
  have grows : s.limit ≤ ({ s with signers := insert a s.signers } : Snapshot).limit :=
    Nat.add_le_add_right
      (Nat.div_le_div_right (Finset.card_le_card (Finset.subset_insert a s.signers))) 1
  obtain ⟨le, lt⟩ := h e he
  exact ⟨le, by omega⟩

/-- With one signer less, at most one block is forgotten, and that is shifted out. -/
theorem Recent.expel (h : s.Recent n.toNat) (a : Address) :
    (({ s with signers := s.signers.erase a } : Snapshot).shiftOut n).Recent n.toNat := by
  have shrinks : s.limit ≤ ({ s with signers := s.signers.erase a } : Snapshot).limit + 1 := by
    have : s.signers.card - 1 ≤ (s.signers.erase a).card := Finset.pred_card_le_card_erase
    simp only [limit]
    omega
  intro e he
  obtain ⟨he, ne⟩ := mem_shiftOut.1 he
  obtain ⟨le, lt⟩ := h e he
  rw [limit_shiftOut]
  exact ⟨le, by omega⟩

theorem Recent.settle (h : s.Recent n.toNat) (a : Address) : (s.settle n a).Recent n.toNat := by
  unfold Snapshot.settle
  split
  · exact h
  · split_ifs
    · exact h
    · exact h.enrol a
    · exact (sameSeats_discardCast _ a).recent (h.expel a)

theorem Recent.tallyUp (h : s.Recent n.toNat) (signer a : Address) (b : Bool) :
    (s.tallyUp n signer a b).Recent n.toNat := by
  have cast := (sameSeats_cast s a b).recent h
  apply Recent.settle
  split_ifs
  · exact cast
  · exact cast

end Seats

end Snapshot

end JuChain.Clique
