import JuChain.Clique.Verify

/-!
# The books of the votes, and the last signer

In every snapshot that `apply` makes, the tally of an address counts the listed votes on it
(`Books`).  A signer who is left alone can still vote on itself: `apply` then empties the set of
signers.
-/

namespace JuChain.Clique

open JuChain.Types Slices List

/-- How many votes there are on the address. -/
def votesOn (votes : List Vote) (a : Address) : ℕ := votes.countP fun v => v.address = a

/-- The tally that counts the votes. -/
def tallied (d : Address → Bool) (votes : List Vote) (a : Address) : Option Tally :=
  if votesOn votes a = 0 then none else some ⟨d a, votesOn votes a⟩

/-- The vote on an address that would change something. -/
def direction (signers : Finset Address) (a : Address) : Bool := a ∉ signers

section Tallied

variable {d : Address → Bool} {v : Vote} {vs us : List Vote} {s : Snapshot} {c : Address}

theorem votesOn_cons (v : Vote) (vs : List Vote) (a : Address) :
    votesOn (v :: vs) a = votesOn vs a + if v.address = a then 1 else 0 := by
  simp [votesOn, countP_cons]

theorem tallied_perm (h : us.Perm vs) : tallied d us = tallied d vs := by
  funext a
  rw [tallied, tallied, votesOn, votesOn, h.countP_eq]

theorem tally_uncast (h : s.tally = tallied d (v :: vs)) (hv : v.authorize = d v.address) :
    (s.uncast v.address v.authorize).tally = tallied d vs := by
  have here : s.tally v.address = some ⟨d v.address, votesOn vs v.address + 1⟩ := by
    simp [h, tallied, votesOn_cons]
  have others {x : Option Tally} (hx : x = tallied d vs v.address) :
      Function.update s.tally v.address x = tallied d vs := by
    funext a
    by_cases ha : a = v.address
    · simp [ha, hx]
    · simp [ha, h, tallied, votesOn_cons, Ne.symm ha]
  simp only [Snapshot.uncast, here, hv, ne_eq, not_true_eq_false, if_false]
  split_ifs with more
  · exact others (by simp only [tallied]; rw [if_neg (by omega)]; rfl)
  · exact others (by simp only [tallied]; rw [if_pos (by omega)])

theorem tally_foldl_uncast (h : s.tally = tallied d (us ++ vs))
    (hu : ∀ u ∈ us, u.authorize = d u.address) :
    (us.foldl (fun s v => s.uncast v.address v.authorize) s).tally = tallied d vs := by
  induction us generalizing s with
  | nil => exact h
  | cons u us ih =>
    exact ih (tally_uncast h (hu u mem_cons_self)) fun w hw => hu w (mem_cons_of_mem u hw)

theorem tally_cast (h : s.tally = tallied d vs) (hv : v.authorize = d v.address) :
    Function.update s.tally v.address (some ((s.tally v.address).elim ⟨v.authorize, 1⟩ fun old =>
      { old with votes := old.votes + 1 })) = tallied d (vs ++ [v]) := by
  rw [tallied_perm (perm_append_singleton v vs)]
  funext a
  by_cases ha : a = v.address
  · by_cases none : votesOn vs v.address = 0 <;> simp [ha, h, tallied, votesOn_cons, none, hv]
  · simp [ha, h, tallied, votesOn_cons, Ne.symm ha]

theorem tallied_clear {d' : Address → Bool} (same : ∀ a, a ≠ c → d' a = d a) :
    Function.update (tallied d vs) c none = tallied d' (vs.filter fun v => v.address ≠ c) := by
  funext a
  have count : votesOn (vs.filter fun v => v.address ≠ c) a = if a = c then 0 else votesOn vs a := by
    rw [votesOn, countP_filter]
    split_ifs with ha
    · simp [ha]
    · exact countP_congr fun v _ => by simp; rintro rfl; exact ha
  rw [tallied, count]
  by_cases ha : a = c
  · simp [ha]
  · simp [ha, tallied, same a ha]

end Tallied

namespace Snapshot

/-- The tally counts the votes, which are all of seated signers. -/
structure Books (s : Snapshot) : Prop where
  tally : s.tally = tallied (direction s.signers) s.votes
  directed : ∀ v ∈ s.votes, v.authorize = direction s.signers v.address
  voters : ∀ v ∈ s.votes, v.signer ∈ s.signers
  single : s.votes.Pairwise fun v w => ¬ (v.signer = w.signer ∧ v.address = w.address)

variable {s t : Snapshot} {n : UInt64} {signer c : Address} {b : Bool}

theorem Books.congr (h : s.Books) (hs : t.signers = s.signers) (hv : t.votes = s.votes)
    (ht : t.tally = s.tally) : t.Books := by
  obtain ⟨tally, directed, voters, single⟩ := h
  exact ⟨by rw [ht, hs, hv, tally], by rwa [hs, hv], by rwa [hs, hv], by rwa [hv]⟩

theorem Books.shiftOut (h : s.Books) (n : UInt64) : (s.shiftOut n).Books := by
  unfold Snapshot.shiftOut
  split_ifs
  · exact h.congr rfl rfl rfl
  · exact h

theorem Books.checkpoint (h : s.Books) (n : UInt64) : (s.checkpoint n).Books := by
  unfold Snapshot.checkpoint
  split_ifs
  · exact ⟨rfl, nofun, nofun, Pairwise.nil⟩
  · exact h

theorem Books.discardPrevious (h : s.Books) (signer c : Address) : (s.discardPrevious signer c).Books ∧
    ∀ v ∈ (s.discardPrevious signer c).votes, ¬ (v.signer = signer ∧ v.address = c) := by
  unfold Snapshot.discardPrevious
  cases found : s.votes.find? fun v => v.signer = signer ∧ v.address = c with
  | none => exact ⟨h, fun v hv => by simpa using find?_eq_none.1 found v hv⟩
  | some v =>
    obtain ⟨hit, pre, post, split, before⟩ := find?_eq_some_iff_append.1 found
    have erased : (s.votes.eraseP fun v => v.signer = signer ∧ v.address = c) = pre ++ post := by
      rw [split, eraseP_append_right _ (by grind), eraseP_cons, hit, cond_true]
    have order : s.votes.Perm (v :: (pre ++ post)) := split ▸ perm_middle
    have left : ∀ w ∈ pre ++ post, w ∈ s.votes := fun w hw => order.mem_iff.2 (mem_cons_of_mem v hw)
    have apart := pairwise_cons.1 ((order.pairwise_iff fun h h' => h ⟨h'.1.symm, h'.2.symm⟩).1 h.single)
    have signers := (sameSeats_uncast s v.address v.authorize).1
    have tally :=
      tally_uncast (h.tally.trans (tallied_perm order)) (h.directed v (order.mem_iff.2 (by simp)))
    simp only [decide_eq_true_eq] at hit
    simp only [erased]
    refine ⟨⟨?_, ?_, ?_, apart.2⟩, fun w hw own => ?_⟩
    · simpa only [signers] using tally
    · simpa only [signers] using fun w hw => h.directed w (left w hw)
    · simpa only [signers] using fun w hw => h.voters w (left w hw)
    · exact apart.1 w hw ⟨hit.1.trans own.1.symm, hit.2.trans own.2.symm⟩

/-- The vote of a header is counted and kept. -/
def voted (s : Snapshot) (number : UInt64) (signer coinbase : Address) (authorize : Bool) : Snapshot :=
  let counted := s.cast coinbase authorize
  if counted.1 then
    { counted.2 with votes := counted.2.votes ++ [⟨signer, number, coinbase, authorize⟩] }
  else counted.2

theorem validVote_iff : s.validVote c b = true ↔ b = direction s.signers c := by
  unfold validVote direction
  by_cases h : c ∈ s.signers <;> cases b <;> simp [h]

theorem voted_eq : s.voted n signer c b = if b = direction s.signers c then
      { (s.cast c b).2 with votes := s.votes ++ [⟨signer, n, c, b⟩] } else s := by
  unfold voted cast
  by_cases h : b = direction s.signers c
  · simp [validVote_iff.2 h, ← h]
  · have invalid : s.validVote c b = false := Bool.eq_false_iff.2 fun valid => h (validVote_iff.1 valid)
    simp [invalid, h]

theorem Books.voted (h : s.Books) (seat : signer ∈ s.signers)
    (fresh : ∀ v ∈ s.votes, ¬ (v.signer = signer ∧ v.address = c)) : (s.voted n signer c b).Books := by
  rw [voted_eq]
  split_ifs with valid
  · have signers := (sameSeats_cast s c b).1
    have tally := tally_cast (v := ⟨signer, n, c, b⟩) h.tally valid
    refine ⟨?_, ?_, ?_, pairwise_append.2 ⟨h.single, pairwise_singleton _ _, ?_⟩⟩
    · simpa only [signers, cast, validVote_iff.2 valid, Bool.true_eq_false, if_false] using tally
    · simp only [signers, mem_append, mem_singleton]
      rintro v (hv | rfl)
      · exact h.directed v hv
      · exact valid
    · simp only [signers, mem_append, mem_singleton]
      rintro v (hv | rfl)
      · exact h.voters v hv
      · exact seat
    · rintro v hv w hw
      rw [mem_singleton.1 hw]
      exact fresh v hv
  · exact h

/-- The votes on `c` are dropped when its seat changes, and those of expelled signers. -/
theorem Books.amend (h : s.Books) (vs : List Vote) (sub : vs.Sublist s.votes)
    (tally : t.tally = Function.update (tallied (direction s.signers) vs) c none)
    (votes : t.votes = vs.filter fun v => v.address ≠ c)
    (seats : ∀ a, a ≠ c → (a ∈ t.signers ↔ a ∈ s.signers)) (kept : ∀ v ∈ vs, v.signer ∈ t.signers) :
    t.Books := by
  have same : ∀ a, a ≠ c → direction t.signers a = direction s.signers a := fun a ha => by
    simp [direction, seats a ha]
  refine ⟨?_, ?_, ?_, ?_⟩
  · rw [tally, votes, tallied_clear same]
  · simp only [votes, mem_filter, decide_eq_true_eq]
    exact fun v hv => (h.directed v (sub.subset hv.1)).trans (same _ hv.2).symm
  · simp only [votes, mem_filter]
    exact fun v hv => kept v hv.1
  · rw [votes]
    exact (h.single.sublist sub).sublist filter_sublist

theorem Books.settle (h : s.Books) (n : UInt64) (c : Address) :
    (s.settle n c).Books ∧ (s.settle n c).signers =
      if votesOn s.votes c ≤ s.signers.card / 2 then s.signers
      else if c ∈ s.signers then s.signers.erase c else insert c s.signers := by
  have counted : s.tally c = tallied (direction s.signers) s.votes c := congrFun h.tally c
  unfold Snapshot.settle
  by_cases none : votesOn s.votes c = 0
  · simp [counted, tallied, none, h]
  simp only [counted, tallied, none, if_false]
  split_ifs with few add seat seat
  · exact ⟨h, rfl⟩
  · simp [direction, seat] at add
  · refine ⟨h.amend s.votes (Sublist.refl _) (by simp [discardOn, h.tally]) rfl (fun a ha => ?_)
      fun v hv => ?_, rfl⟩
    · simp [discardOn, ha]
    · exact Finset.mem_insert_of_mem (h.voters v hv)
  · obtain ⟨expelled, hx⟩ : ∃ x,
      x = ({ s with signers := s.signers.erase c } : Snapshot).shiftOut n := ⟨_, rfl⟩
    have kept : expelled.votes = s.votes ∧ expelled.tally = s.tally ∧
        expelled.signers = s.signers.erase c := by
      rw [hx, Snapshot.shiftOut]
      split_ifs <;> exact ⟨rfl, rfl, rfl⟩
    have split : s.votes.Perm
        ((s.votes.filter fun v => v.signer = c) ++ s.votes.filter fun v => v.signer ≠ c) := by
      simpa using (filter_append_perm (fun v : Vote => decide (v.signer = c)) s.votes).symm
    have tally : (expelled.discardCast c).tally =
        tallied (direction s.signers) (s.votes.filter fun v => v.signer ≠ c) := by
      refine tally_foldl_uncast (d := direction s.signers) ?_ fun u hu => h.directed u ?_
      · rw [kept.1, kept.2.1, h.tally, tallied_perm split]
      · exact mem_of_mem_filter (kept.1 ▸ hu)
    have signers : (expelled.discardCast c).signers = s.signers.erase c :=
      (sameSeats_discardCast expelled c).1.trans kept.2.2
    rw [← hx]
    refine ⟨h.amend (s.votes.filter fun v => v.signer ≠ c) filter_sublist (by rw [← tally]; rfl) ?_
      (fun a ha => ?_) fun v hv => ?_, signers⟩
    · simp [discardOn, discardCast, kept.1]
    · simp [discardOn, signers, ha]
    · simp only [mem_filter, decide_eq_true_eq] at hv
      simp [discardOn, signers, hv.2, h.voters v hv.1]
  · simp [direction, seat] at add

/-! ## The last signer -/

/-- The header votes the only signer out. -/
def DropsLast (s : Snapshot) (h : Types.Header) : Prop :=
  s.signers = {h.coinbase} ∧ h.nonce = nonceDropVote

instance decidableDropsLast (s : Snapshot) (h : Types.Header) : Decidable (s.DropsLast h) :=
  inferInstanceAs (Decidable (_ ∧ _))

variable {C : Crypto} {s' : Snapshot} {sigcache sigcache' : SigCache} {h : Types.Header}
  {hs : List Types.Header}

theorem authorizes_eq_ok {nonce : BlockNonce} (ok : authorizes nonce = .ok b) :
    b = false ↔ nonce = nonceDropVote := by
  unfold authorizes at ok
  split_ifs at ok with auth drop
  · obtain rfl := Except.ok.inj ok
    rw [auth]
    decide
  · exact iff_of_true (Except.ok.inj ok).symm drop

/-- The snapshot when the vote of a header is to be counted. -/
def prepared (s : Snapshot) (number : UInt64) (signer coinbase : Address) : Snapshot :=
  (((s.checkpoint number).shiftOut number).remember number signer).discardPrevious signer coinbase

theorem Books.prepared (books : s.Books) (n : UInt64) (signer c : Address) :
    (s.prepared n signer c).Books ∧
    (∀ v ∈ (s.prepared n signer c).votes, ¬ (v.signer = signer ∧ v.address = c)) ∧
    (s.prepared n signer c).signers = s.signers := by
  have remembered : (((s.checkpoint n).shiftOut n).remember n signer).Books :=
    ((books.checkpoint n).shiftOut n).congr rfl rfl rfl
  obtain ⟨before, fresh⟩ := remembered.discardPrevious signer c
  refine ⟨before, fresh, ?_⟩
  rw [Snapshot.prepared, (sameSeats_discardPrevious _ _ _).1]
  exact (signers_shiftOut _ n).trans (sameSeats_checkpoint s n).1

theorem sameSeats_voted : s.SameSeats (s.voted n signer c b) := by
  rw [voted_eq]
  split_ifs
  · exact sameSeats_cast s c b
  · exact .refl s

theorem Books.applyHeader (books : s.Books) (some : s.signers.Nonempty)
    (ok : s.applyHeader C sigcache h = .ok (s', sigcache')) :
    s'.Books ∧ (s'.signers.Nonempty ↔ ¬ s.DropsLast h) := by
  obtain ⟨n, signer, b, -, -, seat, -, hb, rfl, -⟩ := applyHeader_eq_ok.1 ok
  obtain ⟨before, fresh, signers⟩ := books.prepared n signer h.coinbase
  obtain ⟨t, ht⟩ : ∃ t, t = s.prepared n signer h.coinbase := ⟨_, rfl⟩
  rw [← ht] at before fresh signers
  rw [← Snapshot.prepared, ← ht]
  have after : (t.voted n signer h.coinbase b).Books := before.voted (signers ▸ seat) fresh
  have seats : (t.voted n signer h.coinbase b).signers = s.signers := sameSeats_voted.1.trans signers
  obtain ⟨settled, result⟩ := after.settle n h.coinbase
  refine ⟨settled, ?_⟩
  show ((t.voted n signer h.coinbase b).settle n h.coinbase).signers.Nonempty ↔ _
  rw [result, seats, DropsLast, ← authorizes_eq_ok hb]
  by_cases alone : s.signers = {h.coinbase}
  · -- The only signer has no other vote on itself, and nobody else votes.
    obtain rfl : signer = h.coinbase := Finset.mem_singleton.1 (alone ▸ seat)
    have silent : votesOn t.votes h.coinbase = 0 := by
      refine countP_eq_zero.2 fun v hv on => fresh v hv ⟨?_, by simpa using on⟩
      exact Finset.mem_singleton.1 (alone ▸ signers ▸ before.voters v hv)
    have count : votesOn (t.voted n h.coinbase h.coinbase b).votes h.coinbase = if b = false then 1
        else 0 := by
      rw [voted_eq, signers, alone]
      cases b <;> simp [direction, votesOn] <;> simpa [votesOn] using silent
    rw [count, alone]
    cases b <;> simp
  · have kept : ∀ S : Finset Address, (S = s.signers ∨ S = s.signers.erase h.coinbase ∨
        S = insert h.coinbase s.signers) → S.Nonempty := by
      rintro S (rfl | rfl | rfl)
      · exact some
      · rw [Finset.nonempty_iff_ne_empty, ne_eq, Finset.erase_eq_empty_iff, not_or]
        exact ⟨some.ne_empty, alone⟩
      · exact Finset.insert_nonempty ..
    simp only [alone, false_and, not_false_eq_true, iff_true]
    split_ifs
    · exact kept _ (.inl rfl)
    · exact kept _ (.inr (.inl rfl))
    · exact kept _ (.inr (.inr rfl))

/-- One header, as a step. -/
def headerStep (C : Crypto) (st : Snapshot × SigCache) (h : Types.Header) :
    Option (Snapshot × SigCache) :=
  (st.1.applyHeader C st.2 h).toOption

theorem Books.applyLoop (books : s.Books) (some : s.signers.Nonempty)
    (ok : s.applyLoop C sigcache hs = .ok (s', sigcache')) : s'.signers.Nonempty ↔
      Runs.Throughout (headerStep C) (fun st h => ¬ st.1.DropsLast h) (s, sigcache) hs := by
  induction hs generalizing s sigcache with
  | nil =>
    cases ok
    exact iff_of_true some trivial
  | cons h hs ih =>
    obtain ⟨⟨t, sigcache₁⟩, step, ok⟩ := bind_eq_ok.1 ok
    obtain ⟨books', kept⟩ := books.applyHeader some step
    have next : headerStep C (s, sigcache) h = .some (t, sigcache₁) := by
      rw [headerStep, step]
      rfl
    simp only [Runs.Throughout, next, Option.some.injEq, forall_eq']
    by_cases left : t.signers.Nonempty
    · rw [ih books' left ok, and_iff_right (kept.1 left)]
    · -- Without signers no further header is accepted.
      refine iff_of_false ?_ fun both => left (kept.2 both.1)
      cases hs with
      | nil =>
        cases ok
        exact left
      | cons h' hs =>
        obtain ⟨⟨u, _⟩, step', -⟩ := bind_eq_ok.1 ok
        obtain ⟨_, signer, -, -, -, seat, -⟩ := applyHeader_eq_ok.1 step'
        exact absurd ⟨signer, seat⟩ left

/-! ## Signing the next block -/

/-- `CalcDifficulty`, which crashes where `inturn` divides by the number of signers. -/
def calcDifficulty (s : Snapshot) (signer : Address) : Except (Fault Err) ℤ :=
  if s.signers.card = 0 then .error .panic
  else .ok (if s.inturn (s.number + 1) signer then diffInTurn else diffNoTurn)

/-- No number is recorded twice. -/
def Keyed (s : Snapshot) : Prop := (s.recents.map Prod.fst).Nodup

theorem Keyed.sub (keyed : s.Keyed) (sub : t.recents.Sublist s.recents) : t.Keyed :=
  keyed.sublist (sub.map _)

theorem Keyed.shiftOut (keyed : s.Keyed) (n : UInt64) : (s.shiftOut n).Keyed := by
  refine keyed.sub ?_
  unfold Snapshot.shiftOut
  split_ifs
  · exact filter_sublist
  · exact Sublist.refl _

theorem Keyed.sameSeats (keyed : s.Keyed) (same : s.SameSeats t) : t.Keyed :=
  keyed.sub (same.2 ▸ Sublist.refl _)

theorem Keyed.applyHeader (keyed : s.Keyed) (ok : s.applyHeader C sigcache h = .ok (s', sigcache')) :
    s'.Keyed := by
  obtain ⟨n, signer, b, -, -, -, -, -, rfl, -⟩ := applyHeader_eq_ok.1 ok
  have shifted := (keyed.sameSeats (sameSeats_checkpoint s n)).shiftOut n
  have remembered : (((s.checkpoint n).shiftOut n).remember n signer).Keyed := by
    refine nodup_cons.2 ⟨?_, shifted.sub filter_sublist⟩
    simp [forget]
  have before := remembered.sameSeats (sameSeats_discardPrevious _ signer h.coinbase)
  generalize (((s.checkpoint n).shiftOut n).remember n signer).discardPrevious signer h.coinbase =
    t at before ⊢
  have voted : (t.voted n signer h.coinbase b).Keyed := before.sameSeats sameSeats_voted
  show ((t.voted n signer h.coinbase b).settle n h.coinbase).Keyed
  unfold settle
  split
  · exact voted
  · split_ifs
    · exact voted
    · exact voted
    · exact Keyed.sameSeats (Keyed.shiftOut (s := { t.voted n signer h.coinbase b with
        signers := (t.voted n signer h.coinbase b).signers.erase h.coinbase }) voted n)
          (sameSeats_discardCast _ _)

theorem Keyed.applyLoop (keyed : s.Keyed) (ok : s.applyLoop C sigcache hs = .ok (s', sigcache')) :
    s'.Keyed := by
  induction hs generalizing s sigcache with
  | nil =>
    cases ok
    exact keyed
  | cons h hs ih =>
    obtain ⟨⟨t, sigcache₁⟩, step, ok⟩ := bind_eq_ok.1 ok
    exact ih (keyed.applyHeader step) ok

theorem exists_free_signer (some : s.signers.Nonempty) (keyed : s.Keyed)
    (recent : s.Recent s.number.toNat) (next : n.toNat = s.number.toNat + 1) :
    ∃ signer ∈ s.signers, signer ∉ (s.shiftOut n).recents.map Prod.snd := by
  have keys := ((keyed.shiftOut n).map fun _ _ => UInt64.toNat_inj.1)
  have inside : ((s.shiftOut n).recents.map Prod.fst).map UInt64.toNat ⊆
      range' (s.number.toNat + 2 - s.limit) (s.number.toNat + 1 - (s.number.toNat + 2 - s.limit)) := by
    intro k hk
    simp only [mem_map, map_map] at hk
    obtain ⟨e, he, rfl⟩ := hk
    obtain ⟨he, ne⟩ := mem_shiftOut.1 he
    obtain ⟨le, lt⟩ := recent e he
    simp only [mem_range'_1, Function.comp_apply]
    omega
  have few := (keys.subperm inside).length_le
  have card := some.card_pos
  by_contra all
  push Not at all
  have covered : s.signers ⊆ ((s.shiftOut n).recents.map Prod.snd).toFinset :=
    fun a ha => mem_toFinset.2 (all a ha)
  have bound := (Finset.card_le_card covered).trans (toFinset_card_le _)
  simp only [length_map, length_range', limit] at few bound
  omega

end Snapshot

open Snapshot

/-! ## Two signers -/

/-- Headers are told apart by the lengths of their encodings. -/
def voteCrypto : Crypto :=
  { plainCrypto with keccak := fun bs => BitVec.ofNat 256 (BigEndian.value (bs.take 3)) }

/-- A header with a vote. -/
def ballot (number : ℤ) (signer : UInt8) (coinbase : Address) (nonce : BlockNonce) : Types.Header :=
  { turn number signer with
    coinbase := coinbase, nonce := nonce, extra :=
      replicate number.toNat 0 ++ (turn number signer).extra }

/-- Signers 1 and 2. -/
def twoSigners : Snapshot := .new fiveSigners.config 0 0 [1, 2]

/-- After a vote for 9. -/
def nineNamed : Snapshot :=
  { twoSigners with
    recents := [(1, 1)], votes := [⟨1, 1, 9, true⟩], tally :=
      Function.update (fun _ => none) 9 (some ⟨true, 1⟩) }

/-- After a vote against 2 as well. -/
def twoNamed : Snapshot :=
  { twoSigners with
    recents := [(2, 2), (1, 1)], votes := [⟨1, 1, 9, true⟩, ⟨2, 2, 2, false⟩]
    tally := Function.update nineNamed.tally 2 (some ⟨false, 1⟩) }

theorem ecrecover_of_miss {C : Crypto} {h : Types.Header} {k : Hash} (hash : h.hash C.keccak = k)
    {cache : SigCache} (miss : cache k = none) {a : Address} (signer : recover C h = .ok a) :
    ecrecover C cache h = (.ok a, Function.update cache k (some a)) := by
  rw [ecrecover, hash, miss, signer]

theorem hash_ballots : (ballot 1 1 9 nonceAuthVote).hash voteCrypto.keccak = 16319113 ∧
    (ballot 2 2 2 nonceDropVote).hash voteCrypto.keccak = 16319114 ∧
    (ballot 3 1 2 nonceDropVote).hash voteCrypto.keccak = 16319115 := by
  decide +kernel

/-- Signer 2 is voted out by its own vote and that of signer 1. -/
theorem apply_ballots : ∃ snap sigcache, twoSigners.apply voteCrypto noCache
      [ballot 1 1 9 nonceAuthVote, ballot 2 2 2 nonceDropVote, ballot 3 1 2 nonceDropVote] =
        .ok (snap, sigcache) ∧
    snap.signers = {1} ∧ snap.votes = [⟨1, 1, 9, true⟩] := by
  have one := ecrecover_of_miss hash_ballots.1 (show noCache _ = none from rfl) (a := 1) (by decide)
  have two := ecrecover_of_miss hash_ballots.2.1
    (show Function.update noCache 16319113 (some 1) _ = none by decide) (a := 2) (by decide)
  have three := ecrecover_of_miss hash_ballots.2.2
    (show Function.update (Function.update noCache 16319113 (some 1)) 16319114 (some 2) _ =
      none by decide)
    (a := 1) (by decide)
  have first : twoSigners.applyHeader voteCrypto noCache (ballot 1 1 9 nonceAuthVote) =
    .ok (nineNamed, _) :=
    applyHeader_eq_ok.2 ⟨1, 1, true, rfl, congrArg Prod.fst one, by decide, by decide, rfl, rfl,
      (congrArg Prod.snd one).symm⟩
  have second : nineNamed.applyHeader voteCrypto _ (ballot 2 2 2 nonceDropVote) = .ok (twoNamed, _) :=
    applyHeader_eq_ok.2 ⟨2, 2, false, rfl, congrArg Prod.fst two, by decide, by decide, rfl, rfl,
      (congrArg Prod.snd two).symm⟩
  have third : twoNamed.applyHeader voteCrypto _ (ballot 3 1 2 nonceDropVote) = .ok (_, _) :=
    applyHeader_eq_ok.2 ⟨3, 1, false, rfl, congrArg Prod.fst three, by decide, by decide, rfl, rfl, rfl⟩
  have numbers : checkPairs
      [ballot 1 1 9 nonceAuthVote, ballot 2 2 2 nonceDropVote, ballot 3 1 2 nonceDropVote] =
        .ok () := rfl
  simp only [apply, numbers, applyLoop, first, second, third, ok_bind, ne_eq]
  exact ⟨_, _, rfl, by decide, by decide⟩

/-- Signers are left exactly if no header votes the only signer out. -/
theorem signers_nonempty_iff {C : Crypto} {config : Config} {hash : Hash} {genesis : List Address}
    {sigcache sigcache' : SigCache} {headers : List Types.Header} {snap : Snapshot}
    (some : genesis ≠ [])
    (accepted : (Snapshot.new config 0 hash genesis).apply C sigcache headers = .ok (snap, sigcache')) :
    (snap.signers.Nonempty ↔ Runs.Throughout (headerStep C) (fun st h => ¬ st.1.DropsLast h)
      (.new config 0 hash genesis, sigcache) headers) ∧
    (∀ signer, snap.signers.Nonempty ↔ snap.calcDifficulty signer ≠ .error .panic) ∧
    (snap.signers.Nonempty → (∀ h ∈ headers, headerNumber h ≠ .ok 0) → snap.number + 1 ≠ 0 →
      ∃ signer ∈ snap.signers, ∀ h sigcache, headerNumber h = .ok (snap.number + 1) →
        ValidNonce h.nonce →
        (ecrecover C sigcache h).1 = .ok signer → ∃ r, snap.apply C sigcache [h] = .ok r) := by
  obtain ⟨-, t, loop, eq⟩ := apply_eq_ok accepted
  have signers : snap.signers = t.signers := by rw [eq]
  have recents : snap.recents = t.recents := by rw [eq]
  have books : (Snapshot.new config 0 hash genesis).Books := ⟨rfl, nofun, nofun, Pairwise.nil⟩
  have start : (Snapshot.new config 0 hash genesis).signers.Nonempty :=
    toFinset_nonempty_iff _ |>.2 some
  refine ⟨signers ▸ books.applyLoop start loop, fun signer => ?_, fun left mined next => ?_⟩
  · by_cases none : snap.signers.card = 0
    · simp [calcDifficulty, Finset.card_eq_zero.1 none]
    · simp [calcDifficulty, none, Finset.card_ne_zero.1 none]
  · have keyed : snap.Keyed := by
      have := Keyed.applyLoop (s := .new config 0 hash genesis) nodup_nil loop
      exact this.sub (recents ▸ Sublist.refl _)
    have recent := Recent.apply (s := .new config 0 hash genesis) nofun mined accepted
    obtain ⟨signer, seat, free⟩ := exists_free_signer left keyed recent (toNat_succ next)
    refine ⟨signer, seat, fun h cache number vote signed => ?_⟩
    obtain ⟨b, hb⟩ := authorizes_ok_iff.2 vote
    rw [apply_singleton number]
    exact ⟨_, applyHeader_eq_ok.2 ⟨_, signer, b, number, signed, seat, free, hb, rfl, rfl⟩⟩

theorem ballots_leave_signer : ∃ snap sigcache, twoSigners.apply voteCrypto noCache
      [ballot 1 1 9 nonceAuthVote, ballot 2 2 2 nonceDropVote, ballot 3 1 2 nonceDropVote] =
        .ok (snap, sigcache) ∧
    Runs.Throughout (headerStep voteCrypto) (fun st h => ¬ st.1.DropsLast h) (twoSigners, noCache)
      [ballot 1 1 9 nonceAuthVote, ballot 2 2 2 nonceDropVote, ballot 3 1 2 nonceDropVote] := by
  obtain ⟨snap, sigcache, accepted, one, -⟩ := apply_ballots
  have kept := (signers_nonempty_iff (by simp : ([1, 2] : List Address) ≠ []) accepted).1
  exact ⟨snap, sigcache, accepted, kept.1 (one ▸ Finset.singleton_nonempty 1)⟩

/-- The only signer votes itself out, and `CalcDifficulty` crashes. -/
theorem last_signer_dropped : ∃ snap sigcache,
    (Snapshot.new ⟨30000, by decide⟩ 0 0 [1]).apply plainCrypto noCache
      [{ turn 1 1 with coinbase := 1 }] =
      .ok (snap, sigcache) ∧ snap.signers = ∅ ∧ snap.calcDifficulty 1 = .error .panic :=
  ⟨_, _, rfl, by decide, by decide⟩

end JuChain.Clique
