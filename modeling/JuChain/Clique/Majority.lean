import JuChain.Clique.Votes

/-!
# Majorities

A header settles the votes on its own coinbase only.  When a signer loses its seat, the votes on
another address can become a majority, and nothing happens until a header votes on this address
again (`majority_not_seated`).
-/

namespace JuChain.Clique

open JuChain.Types Slices List Runs

namespace Snapshot

/-- The signers with a listed vote on the address. -/
def voters (s : Snapshot) (a : Address) : Finset Address :=
  ((s.votes.filter fun v => v.address = a).map Vote.signer).toFinset

/-- The snapshot when the vote of a header is to be settled. -/
def counted (s : Snapshot) (number : UInt64) (signer coinbase : Address) (authorize : Bool) :
    Snapshot :=
  (s.prepared number signer coinbase).voted number signer coinbase authorize

variable {C : Crypto} {s s' : Snapshot} {sigcache sigcache' : SigCache} {h : Types.Header}
  {n : UInt64} {c : Address}

theorem Books.card_voters (books : s.Books) (a : Address) : (s.voters a).card = votesOn s.votes a := by
  have distinct : ((s.votes.filter fun v => v.address = a).map Vote.signer).Nodup := by
    refine pairwise_map.2 ((books.single.filter _).imp_of_mem fun hv hw apart same => apart ⟨same, ?_⟩)
    simp only [mem_filter, decide_eq_true_eq] at hv hw
    rw [hv.2, hw.2]
  rw [Snapshot.voters, toFinset_card_of_nodup distinct, length_map, votesOn, countP_eq_length_filter]

theorem Books.counted {signer : Address} (books : s.Books) (seat : signer ∈ s.signers) (b : Bool) :
    (s.counted n signer c b).Books ∧ (s.counted n signer c b).signers = s.signers := by
  obtain ⟨before, fresh, signers⟩ := books.prepared n signer c
  exact ⟨before.voted (signers.symm ▸ seat) fresh, sameSeats_voted.1.trans signers⟩

theorem Books.settle_of_few (books : s.Books) (n : UInt64)
    (few : votesOn s.votes c ≤ s.signers.card / 2) : s.settle n c = s := by
  rw [Snapshot.settle, congrFun books.tally c, tallied]
  split_ifs
  · rfl
  · exact if_pos few

/-- A seat changes exactly if more than half of the signers vote on the header's address, its own
vote included. -/
def SeatsChange (C : Crypto) (st : Snapshot × SigCache) (h : Types.Header) (s' : Snapshot) : Prop :=
  ∃ n signer authorize, headerNumber h = .ok n ∧ (ecrecover C st.2 h).1 = .ok signer ∧
    authorizes h.nonce = .ok authorize ∧ ∀ a, ¬ (a ∈ s'.signers ↔ a ∈ st.1.signers) ↔
      a = h.coinbase ∧
        st.1.signers.card < 2 * ((st.1.counted n signer h.coinbase authorize).voters a).card

theorem Books.seatsChange (books : s.Books) (ok : s.applyHeader C sigcache h = .ok (s', sigcache')) :
    SeatsChange C (s, sigcache) h s' := by
  obtain ⟨n, signer, b, number, recovered, seat, -, vote, rfl, -⟩ := applyHeader_eq_ok.1 ok
  obtain ⟨after, signers⟩ := books.counted (n := n) (c := h.coinbase) seat b
  refine ⟨n, signer, b, number, recovered, vote, fun a => ?_⟩
  show ¬ (a ∈ ((s.counted n signer h.coinbase b).settle n h.coinbase).signers ↔ _) ↔ _
  rw [after.card_voters, (after.settle n h.coinbase).2, signers]
  by_cases other : a = h.coinbase
  · subst other
    split_ifs with few on
    · simp
      omega
    · simp [on]
      omega
    · simp [on]
      omega
  · split_ifs <;> simp [other]

/-! ## Signing again -/

theorem Books.recents_eq (books : s.Books) (ok : s.applyHeader C sigcache h = .ok (s', sigcache'))
    (same : s'.signers.card = s.signers.card) : ∃ n signer, headerNumber h = .ok n ∧
      (ecrecover C sigcache h).1 = .ok signer ∧
      s'.recents = (n, signer) :: (s.shiftOut n).recents.filter fun e => e.1 ≠ n := by
  obtain ⟨n, signer, b, number, recovered, seat, -, vote, rfl, -⟩ := applyHeader_eq_ok.1 ok
  obtain ⟨after, signers⟩ := books.counted (n := n) (c := h.coinbase) seat b
  refine ⟨n, signer, number, recovered, ?_⟩
  change ((s.counted n signer h.coinbase b).settle n h.coinbase).signers.card = _ at same
  show ((s.counted n signer h.coinbase b).settle n h.coinbase).recents = _
  have few : votesOn (s.counted n signer h.coinbase b).votes h.coinbase ≤
      (s.counted n signer h.coinbase b).signers.card / 2 := by
    by_contra many
    rw [(after.settle n h.coinbase).2, if_neg many, signers] at same
    split_ifs at same with on
    · have := Finset.card_erase_lt_of_mem on
      omega
    · rw [Finset.card_insert_of_notMem on] at same
      omega
  rw [after.settle_of_few n few, Snapshot.counted, sameSeats_voted.2, Snapshot.prepared,
    (sameSeats_discardPrevious _ _ _).2,
    remember, forget, ((sameSeats_checkpoint s n).shiftOut n).2]

variable {hs mid post : List Types.Header} {st st' : Snapshot × SigCache}

theorem Numbered.drop (numbered : Numbered n (mid ++ hs)) : ∃ m, Numbered m hs := by
  induction mid generalizing n with
  | nil => exact ⟨n, numbered⟩
  | cons h mid ih => exact ih numbered.2

theorem run_of_applyLoop (ok : s.applyLoop C sigcache hs = .ok (s', sigcache')) :
    run (headerStep C) (s, sigcache) hs = some (s', sigcache') := by
  induction hs generalizing s sigcache with
  | nil =>
    cases ok
    rfl
  | cons h hs ih =>
    obtain ⟨⟨t, sigcache₁⟩, step, ok⟩ := bind_eq_ok.1 ok
    rw [run_cons, headerStep, step]
    exact ih ok

theorem headerStep_eq_some :
    headerStep C st h = some st' ↔ st.1.applyHeader C st.2 h = .ok st' := by
  unfold headerStep
  cases st.1.applyHeader C st.2 h <;> simp [Except.toOption]

theorem Books.step (books : st.1.Books) (step : headerStep C st h = some st') : st'.1.Books := by
  have ok := headerStep_eq_some.1 step
  obtain ⟨_, signer, -, -, -, seat, -⟩ := applyHeader_eq_ok.1 ok
  exact (books.applyHeader ⟨signer, seat⟩ ok).1

/-- While no seat changes, a recent signer signs none of the next headers. -/
theorem Books.not_signer {k : UInt64} {a : Address} {d : ℕ} (books : st.1.Books)
    (he : (k, a) ∈ st.1.recents)
    (number : n.toNat = (k.toNat + d) % 2 ^ 64) (numbered : Numbered n (mid ++ h :: post))
    (near : d + mid.length + 1 < st.1.limit) (small : d + mid.length + 1 < 2 ^ 63)
    (ran : run (headerStep C) st mid = some st')
    (same : Runs.Always (headerStep C) (fun t => t.1.signers.card = st.1.signers.card) st mid)
    {r : Snapshot × SigCache} (accepted : headerStep C st' h = some r) :
    (ecrecover C st'.2 h).1 ≠ .ok a := by
  have next : (n + 1).toNat = (k.toNat + (d + 1)) % 2 ^ 64 := by
    rw [UInt64.toNat_add, number, UInt64.toNat_one]
    omega
  have apart : k.toNat + st.1.limit ≠ (n + 1).toNat := by omega
  induction mid generalizing st d n with
  | nil =>
    obtain rfl := Option.some.inj ran
    obtain ⟨n', signer, b, number', recovered, -, free, -⟩ :=
      applyHeader_eq_ok.1 (headerStep_eq_some.1 accepted)
    obtain rfl := Except.ok.inj (numbered.1.symm.trans number')
    rw [recovered]
    rintro ⟨⟩
    exact free (mem_map.2 ⟨(k, a), mem_shiftOut.2 ⟨he, apart⟩, rfl⟩)
  | cons x mid ih =>
    rw [run_cons, Option.bind_eq_some_iff] at ran
    obtain ⟨t, step, ran⟩ := ran
    have later := same.2 t step
    have seats : t.1.signers.card = st.1.signers.card := later.head
    have limit : t.1.limit = st.1.limit := by rw [Snapshot.limit, Snapshot.limit, seats]
    simp only [length_cons] at near small
    obtain ⟨n', signer, number', -, recents⟩ := books.recents_eq (headerStep_eq_some.1 step) seats
    obtain rfl := Except.ok.inj (numbered.1.symm.trans number')
    have new : k ≠ n + 1 := fun same => by
      have := congrArg UInt64.toNat same
      omega
    have stays : (k, a) ∈ t.1.recents := by
      rw [recents]
      exact mem_cons_of_mem _ (mem_filter.2 ⟨mem_shiftOut.2 ⟨he, apart⟩, by simpa using new⟩)
    have next' : (n + 1 + 1).toNat = (k.toNat + (d + 1 + 1)) % 2 ^ 64 := by
      rw [UInt64.toNat_add, next, UInt64.toNat_one]
      omega
    exact ih (books.step step) stays next numbered.2 (by omega) (by omega) ran (seats ▸ later) next'
      (by omega)

end Snapshot

open Snapshot

/-- The books are right after all accepted headers, seats change by the majority that a header votes
with, and while no seat changes nobody signs twice within the limit. -/
theorem votes_exact {C : Crypto} {config : Config} {number : UInt64} {hash : Hash}
    {genesis : List Address}
    {sigcache sigcache' : SigCache} {headers : List Types.Header} {snap : Snapshot}
    (slice : headers.length < 2 ^ 63)
    (accepted : (Snapshot.new config number hash genesis).apply C sigcache headers =
      .ok (snap, sigcache')) :
    snap.Books ∧
    Runs.Throughout (headerStep C)
    (fun st h => ∀ st', headerStep C st h = some st' → SeatsChange C st h st'.1)
      (.new config number hash genesis, sigcache) headers ∧
    ∀ pre h mid h' post st st', headers = pre ++ h :: (mid ++ h' :: post) →
      run (headerStep C) (.new config number hash genesis, sigcache) pre = some st →
      run (headerStep C) st (h :: mid) = some st' →
      Runs.Always (headerStep C) (fun t => t.1.signers.card = st.1.signers.card) st (h :: mid) →
      mid.length + 2 ≤ st.1.limit → (ecrecover C st.2 h).1 ≠ (ecrecover C st'.2 h').1 := by
  obtain ⟨numbered, t, loop, eq⟩ := apply_eq_ok accepted
  have start : (Snapshot.new config number hash genesis).Books := ⟨rfl, nofun, nofun, Pairwise.nil⟩
  have ran := run_of_applyLoop loop
  have keeps (st : Snapshot × SigCache) (h : Types.Header) (st' : Snapshot × SigCache)
    (books : st.1.Books)
      (step : headerStep C st h = some st') : st'.1.Books := books.step step
  refine ⟨?_, ?_, ?_⟩
  · exact (run_invariant (I := fun st : Snapshot × SigCache => st.1.Books) keeps start ran).congr
      (by rw [eq]) (by rw [eq]) (by rw [eq])
  · exact throughout_of_invariant (I := fun st : Snapshot × SigCache => st.1.Books) keeps
      (fun st h books st' step => books.seatsChange (headerStep_eq_some.1 step)) start headers
  · rintro pre h mid h' post st st' rfl before between same near
    have books := run_invariant (I := fun st : Snapshot × SigCache => st.1.Books) keeps start before
    rw [run_append, before, Option.bind_some, ← cons_append, run_append, between, Option.bind_some,
      run_cons, Option.bind_eq_some_iff] at ran
    obtain ⟨r, last, -⟩ := ran
    obtain ⟨m, numbered⟩ := numbered.drop
    rw [run_cons, Option.bind_eq_some_iff] at between
    obtain ⟨t₁, first, between⟩ := between
    have later := same.2 t₁ first
    have seats : t₁.1.signers.card = st.1.signers.card := later.head
    have limit : t₁.1.limit = st.1.limit := by rw [Snapshot.limit, Snapshot.limit, seats]
    obtain ⟨n, signer, number', recovered, recents⟩ :=
      books.recents_eq (headerStep_eq_some.1 first) seats
    obtain rfl := Except.ok.inj (numbered.1.symm.trans number')
    simp only [length_append, length_cons] at slice
    rw [recovered]
    refine Ne.symm ((books.step first).not_signer (d := 0) (recents ▸ mem_cons_self) ?_ numbered.2
      ?_ ?_ between (seats ▸ later) last)
    · rw [Nat.add_zero, Nat.mod_eq_of_lt (m + 1).toNat_lt]
    · omega
    · omega

theorem ballots_counted : ∃ snap sigcache, twoSigners.apply voteCrypto noCache
      [ballot 1 1 9 nonceAuthVote, ballot 2 2 2 nonceDropVote, ballot 3 1 2 nonceDropVote] =
        .ok (snap, sigcache) ∧
    snap.Books ∧ votesOn snap.votes 9 = 1 := by
  obtain ⟨snap, sigcache, accepted, -, votes⟩ := apply_ballots
  exact ⟨snap, sigcache, accepted, (votes_exact (by decide) accepted).1, by rw [votes]; decide⟩

/-- Signer 2 is voted out.  The only signer left has a vote for account 9, which gets no seat. -/
theorem majority_not_seated : ∃ snap sigcache, twoSigners.apply voteCrypto noCache
      [ballot 1 1 9 nonceAuthVote, ballot 2 2 2 nonceDropVote, ballot 3 1 2 nonceDropVote] =
        .ok (snap, sigcache) ∧
    snap.signers = {1} ∧ snap.voters 9 = {1} := by
  obtain ⟨snap, sigcache, accepted, signers, votes⟩ := apply_ballots
  exact ⟨snap, sigcache, accepted, signers, by rw [voters, votes]; decide⟩

end JuChain.Clique
