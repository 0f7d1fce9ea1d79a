import JuChain.Serve.Handler

/-!
# Replies to header queries

`Answers` says what the reply to a header query should be, with positions over the integers.  The
four ways to advance do arithmetic on unsigned 64-bit integers, and only one of them checks for
overflow, so that the reply is right under the condition `Fair` alone
(`getBlockHeaders_answers_iff`).
-/

namespace JuChain.Serve

open Slices List Option UInt64

variable {k : ℕ}

/-- The canonical chain: one header for every number up to the height, each the parent of the
next. -/
structure CanonicalChain (db : Records) (height : ℕ) : Prop extends db.Sound where
  bounded : height < 2 ^ 64
  upto : ∀ n, (db.canonical n).isSome ↔ n.toNat ≤ height
  grounded : ∀ {h x}, db.canonical 0 = some h → db.header (0, h) = some x →
    ∀ n, db.header (n, x.parentHash) = none
  linked : ∀ {n h x}, db.canonical n = some h → db.header (n, h) = some x → n ≠ 0 →
    db.canonical (n - 1) = some x.parentHash

/-- The canonical header with number `i`. -/
def headerAt (db : Records) (i : ℤ) : Option Stored :=
  if 0 ≤ i ∧ i < 2 ^ 64 then db.getHeaderByNumber (ofNat i.toNat) else none

namespace HeaderQuery

/-- The number of the origin: the number given, or that of the canonical header with the hash
given. -/
def Starts (query : HeaderQuery) (db : Records) (origin : UInt64) : Prop :=
  if query.hashMode then db.canonical origin = some query.originHash else origin = query.originNumber

/-- How far two headers of the reply are apart. -/
def stride (query : HeaderQuery) : ℤ :=
  if query.reverse then -((query.skip.toNat : ℤ) + 1) else query.skip.toNat + 1

/-- The number of the header with index `k` in the reply. -/
def position (query : HeaderQuery) (origin : UInt64) (k : ℕ) : ℤ := origin.toNat + k * query.stride

end HeaderQuery

/-- The reply is what the query asks for. -/
structure Answers (db : Records) (query : HeaderQuery) (origin : UInt64) (reply : List Stored) :
    Prop where
  headers : ∀ k x, reply[k]? = some x → headerAt db (query.position origin k) = some x
  distinct : reply.Nodup
  amount : reply.length ≤ query.amount.toNat
  complete : reply.length = query.amount.toNat ∨ reply.length = maxHeaderFetch ∨
    softResponseLimit ≤ reply.length * estHeaderRlpSize ∨
      headerAt db (query.position origin reply.length) = none

/-- The step from number `i` does not overflow. -/
def FairStep (query : HeaderQuery) (i : ℤ) : Prop :=
  match query.hashMode, query.reverse with
  | true, true => query.skip.toNat + 1 < 2 ^ 63
  | true, false => True
  | false, true => query.skip.toNat + 1 < 2 ^ 64
  | false, false => i + query.skip.toNat + 1 < 2 ^ 64

/-- With the origin on the chain: the amount fits in an `int`, and no step to a header that is still
asked for overflows. -/
def Fair (query : HeaderQuery) (origin : UInt64) (height : ℕ) : Prop :=
  origin.toNat ≤ height → query.amount.toNat < 2 ^ 63 ∧
    ∀ k : ℕ, k + 1 < min query.amount.toNat maxHeaderFetch → 0 ≤ query.position origin k →
      query.position origin k ≤ height → FairStep query (query.position origin k)

section Chain

variable {db : Records} {height : ℕ} {n : UInt64} {h : Hash} {x : Stored} {i : ℤ}

theorem headerAt_toNat (db : Records) (n : UInt64) : headerAt db n.toNat = db.getHeaderByNumber n := by
  have lt := n.toNat_lt
  rw [headerAt, if_pos ⟨Int.natCast_nonneg _, by exact_mod_cast lt⟩, Int.toNat_natCast,
    UInt64.ofNat_toNat]

theorem headerAt_of_neg (db : Records) (h : i < 0) : headerAt db i = none :=
  if_neg fun h' => absurd h'.1 (not_le.2 h)

theorem headerAt_of_le (db : Records) (h : 2 ^ 64 ≤ i) : headerAt db i = none :=
  if_neg fun h' => absurd h'.2 (not_lt.2 h)

theorem headerAt_eq_some (hx : headerAt db i = some x) :
    ∃ n h, i = toNat n ∧ db.canonical n = some h ∧ db.header (n, h) = some x := by
  unfold headerAt at hx
  split_ifs at hx with range
  obtain ⟨h, hc, hx⟩ := Records.getHeaderByNumber_eq_some hx
  refine ⟨_, h, ?_, hc, hx⟩
  rw [toNat_ofNat', Nat.mod_eq_of_lt (by omega)]
  omega

namespace CanonicalChain

section

variable (chain : CanonicalChain db height)
include chain

theorem exists_header (le : n.toNat ≤ height) :
    ∃ h x, db.canonical n = some h ∧ db.header (n, h) = some x := by
  obtain ⟨h, hc⟩ := isSome_iff_exists.1 ((chain.upto n).2 le)
  obtain ⟨x, hx⟩ := isSome_iff_exists.1 (chain.indexed hc)
  exact ⟨h, x, hc, hx⟩

theorem le_of_canonical (hc : db.canonical n = some h) : n.toNat ≤ height :=
  (chain.upto n).1 (by rw [hc]; rfl)

theorem headerAt_of_canonical (hc : db.canonical n = some h) (hx : db.header (n, h) = some x) :
    headerAt db n.toNat = some x := by
  rw [headerAt_toNat, chain.getHeaderByNumber_of_canonical hc hx]

theorem headerAt_isSome : (headerAt db i).isSome ↔ 0 ≤ i ∧ i ≤ height := by
  constructor
  · intro found
    obtain ⟨x, hx⟩ := isSome_iff_exists.1 found
    obtain ⟨n, h, rfl, hc, -⟩ := headerAt_eq_some hx
    exact ⟨Int.natCast_nonneg _, by exact_mod_cast chain.le_of_canonical hc⟩
  · rintro ⟨nonneg, le⟩
    have bounded := chain.bounded
    have small : (ofNat i.toNat).toNat = i.toNat := by
      rw [toNat_ofNat', Nat.mod_eq_of_lt (by omega)]
    obtain ⟨h, x, hc, hx⟩ := chain.exists_header (by omega : (ofNat i.toNat).toNat ≤ height)
    have found := chain.headerAt_of_canonical hc hx
    rw [small, Int.toNat_of_nonneg nonneg] at found
    rw [found]
    rfl

theorem parent (hc : db.canonical n = some h) (hx : db.header (n, h) = some x) (ne : n ≠ 0) :
    ∃ p, db.canonical (n - 1) = some x.parentHash ∧ db.header (n - 1, x.parentHash) = some p := by
  have hc' := chain.linked hc hx ne
  obtain ⟨p, hp⟩ := isSome_iff_exists.1 (chain.indexed hc')
  exact ⟨p, hc', hp⟩

theorem walkDown_eq (hc : db.canonical n = some h) (le : k ≤ n.toNat) :
    ∃ m hash, m.toNat = n.toNat - k ∧ db.canonical m = some hash ∧ walkDown db k h n = some hash := by
  induction k generalizing n h with
  | zero => exact ⟨n, h, rfl, hc, rfl⟩
  | succ k ih =>
    obtain ⟨x, hx⟩ := isSome_iff_exists.1 (chain.indexed hc)
    have ne : n ≠ 0 := by
      rintro rfl
      exact absurd le (by simp)
    obtain ⟨p, hc', -⟩ := chain.parent hc hx ne
    have below := toNat_pred ne
    obtain ⟨m, hash, hm, hcm, walk⟩ := ih hc' (by omega)
    refine ⟨m, hash, by omega, hcm, ?_⟩
    rw [walkDown, Records.getHeader, hx, bind_some, walk]

theorem walkDown_past (hc : db.canonical n = some h) (lt : n.toNat < k) :
    ∀ hash, walkDown db k h n = some hash → ∀ m, db.header (m, hash) = none := by
  induction k generalizing n h with
  | zero => exact absurd lt (Nat.not_lt_zero _)
  | succ k ih =>
    intro hash walk
    obtain ⟨x, hx⟩ := isSome_iff_exists.1 (chain.indexed hc)
    rw [walkDown, Records.getHeader, hx, bind_some] at walk
    by_cases ne : n = 0
    · subst ne
      have none := chain.grounded hc hx
      cases k with
      | zero =>
        cases walk
        exact none
      | succ k =>
        rw [walkDown, Records.getHeader, none, bind_none] at walk
        cases walk
    · obtain ⟨p, hc', -⟩ := chain.parent hc hx ne
      have below := toNat_pred ne
      exact ih hc' (by omega) hash walk

theorem getElem_hashesBelow (hc : db.canonical n = some h) (hx : db.header (n, h) = some x) {j : ℕ}
    (lt : j < k) (le : k ≤ n.toNat) :
    ∃ m, m.toNat = n.toNat - (j + 1) ∧ (db.hashesBelow k x)[j]? = db.canonical m := by
  induction k generalizing n h x j with
  | zero => exact absurd lt (Nat.not_lt_zero _)
  | succ k ih =>
    have ne : n ≠ 0 := by
      rintro rfl
      exact absurd le (by simp)
    obtain ⟨p, hc', hp⟩ := chain.parent hc hx ne
    have below := toNat_pred ne
    rw [Records.hashesBelow, Records.getHeader, chain.numberU64_eq hx, hp]
    cases j with
    | zero => exact ⟨n - 1, by omega, by rw [hc']; rfl⟩
    | succ j =>
      have later : p.number ≠ 0 := by
        rw [(chain.filed hp).2.1]
        omega
      obtain ⟨m, hm, get⟩ := ih hc' hp (by omega : j < k) (by omega)
      refine ⟨m, by omega, ?_⟩
      simp only [getElem?_cons_succ, if_neg later, get]

theorem rooted : db.Rooted := by
  intro n h x hc hx
  cases number : n.toNat with
  | zero => rfl
  | succ k =>
    obtain ⟨m, hm, get⟩ := chain.getElem_hashesBelow hc hx (Nat.lt_succ_self k) (by omega)
    obtain ⟨h', hc'⟩ := Option.isSome_iff_exists.1 ((chain.upto m).2 (by omega))
    rw [hc'] at get
    have lt := (List.getElem?_eq_some_iff.1 get).1
    exact le_antisymm (Records.length_hashesBelow_le (k + 1) x) lt

end

end CanonicalChain

end Chain

/-! ## One step -/

section Step

variable {db : Records} {height : ℕ} {query : HeaderQuery} {origin : Hash × UInt64} {x : Stored} {i : ℤ}

/-- The cursor is at the canonical header with number `i`. -/
def At (db : Records) (query : HeaderQuery) (origin : Hash × UInt64) (i : ℤ) : Prop :=
  if query.hashMode then ∃ n : UInt64, i = n.toNat ∧ db.canonical n = some origin.1
  else origin.1 = 0 ∧ i = origin.2.toNat

/-- The cursor leads to the canonical header with number `i`, if there is one. -/
structure LeadsTo (db : Records) (query : HeaderQuery) (origin : Hash × UInt64) (i : ℤ) : Prop where
  lookup : lookup db query origin = .ok (headerAt db i)
  place : headerAt db i ≠ none → At db query origin i

theorem rounds_eq (skip : UInt64) :
    rounds skip = if skip.toNat + 1 < 2 ^ 63 then skip.toNat + 1 else 0 := by
  have lt := skip.toNat_lt
  have sum : (skip.toBitVec + 1#64).toNat = (skip.toNat + 1) % 2 ^ 64 := by
    rfl
  rw [rounds, BitVec.toInt_eq_toNat_cond, sum]
  split_ifs <;> omega

theorem int_eq (amount : UInt64) :
    int amount = if amount.toNat < 2 ^ 63 then (amount.toNat : ℤ) else amount.toNat - 2 ^ 64 := by
  change (if 2 * amount.toNat < 2 ^ 64 then (amount.toNat : ℤ) else amount.toNat - (2 ^ 64 : ℕ)) = _
  split_ifs <;> omega

theorem leadsTo_of_canonical (chain : CanonicalChain db height) (mode : query.hashMode = true)
    {n : UInt64}
    (hc : db.canonical n = some origin.1) (hi : i = n.toNat) : LeadsTo db query origin i := by
  obtain ⟨x, hx⟩ := isSome_iff_exists.1 (chain.indexed hc)
  subst hi
  constructor
  · rw [lookup, if_pos mode, chain.headerAt_of_canonical hc hx, chain.getHeaderByHash_of_header hx]
  · intro _
    rw [At, if_pos mode]
    exact ⟨n, rfl, hc⟩

theorem leadsTo_of_unknown (chain : CanonicalChain db height) (mode : query.hashMode = true)
    (unknown : ∀ m, db.header (m, origin.1) = none) (off : headerAt db i = none) :
    LeadsTo db query origin i := by
  constructor
  · rw [lookup, if_pos mode, off, Records.getHeaderByHash]
    obtain ⟨m, number⟩ := chain.toFiled.chainBlockNumber_eq_ok (ε := Err) origin.1
    rw [number]
    exact congrArg Except.ok (unknown m)
  · exact fun on => absurd off on

theorem leadsTo_of_number (mode : query.hashMode = false) (zero : origin.1 = 0)
    (hi : i = origin.2.toNat) : LeadsTo db query origin i := by
  subst hi
  constructor
  · rw [lookup, if_neg (by simp [mode]), headerAt_toNat]
  · intro _
    rw [At, if_neg (by simp [mode])]
    exact ⟨zero, rfl⟩

/-- A step goes to the header one stride away, or stops when there is none. -/
def StepsTo (db : Records) (query : HeaderQuery) (i : ℤ) : Option (Hash × UInt64) → Prop
  | none => headerAt db i = none
  | some next => LeadsTo db query next i

theorem advance_hash_reverse (chain : CanonicalChain db height) (mode : query.hashMode = true)
    (rev : query.reverse = true)
    (place : At db query origin i) (hx : headerAt db i = some x)
    (fair : query.skip.toNat + 1 < 2 ^ 63) :
    ∃ r, advance db query x origin = .ok r ∧ StepsTo db query (i + query.stride) r := by
  rw [At, if_pos mode] at place
  obtain ⟨n, rfl, hc⟩ := place
  obtain ⟨y, hy⟩ := isSome_iff_exists.1 (chain.indexed hc)
  rw [chain.headerAt_of_canonical hc hy, some.injEq] at hx
  subst hx
  have stride : query.stride = -((query.skip.toNat : ℤ) + 1) := if_pos rev
  refine ⟨_, if_pos ⟨(chain.filed hy).2.2, rev⟩, ?_⟩
  rw [chain.numberU64_eq hy, rounds_eq, if_pos fair, stride]
  by_cases le : query.skip.toNat + 1 ≤ n.toNat
  · obtain ⟨m, hash, hm, hcm, walk⟩ := chain.walkDown_eq hc le
    rw [walk]
    exact leadsTo_of_canonical chain mode hcm (by omega)
  · have off : headerAt db (n.toNat + -((query.skip.toNat : ℤ) + 1)) = none :=
      headerAt_of_neg db (by omega)
    cases walk : walkDown db (query.skip.toNat + 1) origin.1 n with
    | none => exact off
    | some hash => exact leadsTo_of_unknown chain mode (chain.walkDown_past hc (by omega) hash walk) off

theorem advance_hash_forward (chain : CanonicalChain db height) (mode : query.hashMode = true)
    (rev : query.reverse = false) (place : At db query origin i) (hx : headerAt db i = some x) :
    ∃ r, advance db query x origin = .ok r ∧ StepsTo db query (i + query.stride) r := by
  rw [At, if_pos mode] at place
  obtain ⟨n, rfl, hc⟩ := place
  obtain ⟨y, hy⟩ := Option.isSome_iff_exists.1 (chain.indexed hc)
  rw [chain.headerAt_of_canonical hc hy, Option.some.injEq] at hx
  subst hx
  have stride : query.stride = (query.skip.toNat : ℤ) + 1 := if_neg (by simp [rev])
  have step : advance db query y origin =
      (climb db query.skip y.numberU64 origin.1).map (Option.map fun hash => (hash, origin.2)) := by
    rw [advance, if_neg (by simp [rev]), if_pos ⟨(chain.filed hy).2.2, by simp [rev]⟩]
  rw [step, chain.numberU64_eq hy, stride]
  by_cases wraps : n + query.skip + 1 ≤ n
  · refine ⟨none, by rw [climb, if_pos wraps]; rfl, headerAt_of_le db ?_⟩
    rw [le_iff_toNat_le] at wraps
    simp only [UInt64.toNat_add, UInt64.toNat_one] at wraps
    omega
  obtain ⟨next, -⟩ := toNat_next wraps
  have there : headerAt db (n.toNat + ((query.skip.toNat : ℤ) + 1)) =
      db.getHeaderByNumber (n + query.skip + 1) := by
    rw [← headerAt_toNat, next]
    push_cast
    ring_nf
  cases found : db.getHeaderByNumber (n + query.skip + 1) with
  | none => exact ⟨none, by rw [climb, if_neg wraps, found]; rfl, there.trans found⟩
  | some header =>
    obtain ⟨h, hc', hz⟩ := Records.getHeaderByNumber_eq_some found
    obtain ⟨m, hm, get⟩ :=
      chain.getElem_hashesBelow hc' hz (Nat.lt_succ_self query.skip.toNat) (by omega)
    -- the ancestor is the canonical header at the number of the origin, which is the origin
    have same : m = n := UInt64.toNat_inj.1 (by omega)
    rw [same, hc] at get
    have ancestor : (index (db.hashesBelow (query.skip.toNat + 1) header) query.skip.toNat : Except
      (Fault Err) Hash) =
        .ok origin.1 := by
      rw [index, get]
    refine ⟨some (h, origin.2), ?_, ?_⟩
    · rw [climb_of_some chain.toSound origin.1 wraps found hz, ancestor, ok_bind, if_pos rfl]
      rfl
    exact leadsTo_of_canonical chain mode hc' (by omega)

theorem advance_number_reverse (mode : query.hashMode = false) (rev : query.reverse = true)
    (place : At db query origin i) (fair : query.skip.toNat + 1 < 2 ^ 64) :
    ∃ r, advance db query x origin = .ok r ∧ StepsTo db query (i + query.stride) r := by
  rw [At, if_neg (by simp [mode])] at place
  obtain ⟨zero, rfl⟩ := place
  have stride : query.stride = -((query.skip.toNat : ℤ) + 1) := if_pos rev
  have succ : (query.skip + 1).toNat = query.skip.toNat + 1 := by
    rw [UInt64.toNat_add, UInt64.toNat_one, Nat.mod_eq_of_lt fair]
  have step : advance db query x origin =
      .ok (if query.skip + 1 ≤ origin.2 then some (origin.1, origin.2 - (query.skip + 1))
        else none) := by
    rw [advance, if_neg (by simp [zero]), if_neg (by simp [zero]), if_pos rev]
  refine ⟨_, step, ?_⟩
  split_ifs with le
  · have below := UInt64.toNat_sub_of_le _ _ le
    rw [le_iff_toNat_le] at le
    exact leadsTo_of_number mode zero (by simp only [below]; omega)
  · rw [le_iff_toNat_le] at le
    exact headerAt_of_neg db (by omega)

theorem advance_number_forward (mode : query.hashMode = false) (rev : query.reverse = false)
    (place : At db query origin i) :
    advance db query x origin = .ok (some (0, origin.2 + (query.skip + 1))) ∧
      (i + query.skip.toNat + 1 < 2 ^ 64 →
        LeadsTo db query (0, origin.2 + (query.skip + 1)) (i + query.stride)) := by
  rw [At, if_neg (by simp [mode])] at place
  obtain ⟨zero, rfl⟩ := place
  have stride : query.stride = (query.skip.toNat : ℤ) + 1 := if_neg (by simp [rev])
  constructor
  · rw [advance, if_neg (by simp [zero]), if_neg (by simp [zero]), if_neg (by simp [rev]), zero]
  · intro fair
    apply leadsTo_of_number mode rfl
    rw [stride, UInt64.toNat_add, UInt64.toNat_add, UInt64.toNat_one]
    omega

theorem advance_fair (chain : CanonicalChain db height) (place : At db query origin i)
    (hx : headerAt db i = some x)
    (fair : FairStep query i) :
    ∃ r, advance db query x origin = .ok r ∧ StepsTo db query (i + query.stride) r := by
  unfold FairStep at fair
  cases mode : query.hashMode <;> cases rev : query.reverse <;> rw [mode, rev] at fair
  · obtain ⟨step, leads⟩ := advance_number_forward (x := x) mode rev place
    exact ⟨_, step, leads fair⟩
  · exact advance_number_reverse mode rev place fair
  · exact advance_hash_forward chain mode rev place hx
  · exact advance_hash_reverse chain mode rev place hx fair

end Step

/-! ## The loop -/

section Loop

variable {db : Records} {height : ℕ} {query : HeaderQuery} {origin : Hash × UInt64} {start : UInt64}
  {headers : List Stored}

/-- The headers are those asked for. -/
def Placed (db : Records) (query : HeaderQuery) (start : UInt64) (headers : List Stored) : Prop :=
  ∀ k x, headers[k]? = some x → headerAt db (query.position start k) = some x

/-- The loop goes on. -/
def Wanted (query : HeaderQuery) (headers : List Stored) : Prop :=
  headers.length < int query.amount ∧ headers.length * estHeaderRlpSize < softResponseLimit ∧
    headers.length < maxHeaderFetch

theorem HeaderQuery.position_succ (query : HeaderQuery) (start : UInt64) (k : ℕ) :
    query.position start (k + 1) = query.position start k + query.stride := by
  unfold position
  push_cast
  ring

variable {x : Stored}

theorem Placed.concat (placed : Placed db query start headers)
    (hx : headerAt db (query.position start headers.length) = some x) :
    Placed db query start (headers ++ [x]) := by
  intro k y hy
  rcases lt_trichotomy k headers.length with lt | rfl | gt
  · rw [getElem?_append_left lt] at hy
    exact placed k y hy
  · rw [getElem?_concat_length, some.injEq] at hy
    exact hy ▸ hx
  · rw [getElem?_eq_none (by rw [length_append, length_singleton]; omega)] at hy
    cases hy

theorem Placed.nodup (chain : CanonicalChain db height) (placed : Placed db query start headers) :
    headers.Nodup := by
  have stride : query.stride ≠ 0 := by
    unfold HeaderQuery.stride
    split_ifs <;> omega
  have number {k : ℕ} {x : Stored} (hx : headers[k]? = some x) : (x.number : ℤ) =
      query.position start k := by
    obtain ⟨n, h, eq, -, hx⟩ := headerAt_eq_some (placed k x hx)
    rw [eq, (chain.filed hx).2.1]
  rw [nodup_iff_injective_getElem]
  intro a b eq
  have ha := number (getElem?_eq_getElem a.2)
  have hb := number (getElem?_eq_getElem b.2)
  simp only at eq
  rw [eq, hb] at ha
  have same : (b : ℤ) * query.stride = a * query.stride := by
    unfold HeaderQuery.position at ha
    linarith
  exact Fin.ext (by exact_mod_cast (mul_right_cancel₀ stride same).symm)

theorem collect_of_not_wanted (i : ℕ) (stop : ¬ Wanted query headers) :
    collect db query i origin headers = .ok headers := by
  cases i with
  | zero => rfl
  | succ i => exact if_neg stop

variable {i : ℕ}

theorem collect_off (wanted : Wanted query headers) (look : lookup db query origin = .ok none) :
    collect db query (i + 1) origin headers = .ok headers := by
  refine (if_pos wanted).trans ?_
  rw [look]
  rfl

theorem collect_last (wanted : Wanted query headers) (look : lookup db query origin = .ok (some x))
    (step : advance db query x origin = .ok none) :
    collect db query (i + 1) origin headers = .ok (headers ++ [x]) := by
  refine (if_pos wanted).trans ?_
  rw [look, ok_bind]
  simp only [step, ok_bind]

theorem collect_next {next : Hash × UInt64} (wanted : Wanted query headers)
    (look : lookup db query origin = .ok (some x))
    (step : advance db query x origin = .ok (some next)) :
    collect db query (i + 1) origin headers = collect db query i next (headers ++ [x]) := by
  refine (if_pos wanted).trans ?_
  rw [look, ok_bind]
  simp only [step, ok_bind]

theorem collect_full (sound : db.Sound) (rooted : db.Rooted) (wanted : Wanted query headers)
    (look : lookup db query origin = .ok (some x)) (full : ¬ Wanted query (headers ++ [x])) :
    collect db query (i + 1) origin headers = .ok (headers ++ [x]) := by
  refine (if_pos wanted).trans ?_
  rw [look, ok_bind]
  obtain ⟨next, step⟩ := advance_eq_ok sound rooted query x origin
  cases next with
  | none => simp only [step, ok_bind]
  | some next => simp only [step, ok_bind, collect_of_not_wanted i full]

theorem wanted_iff (small : query.amount.toNat < 2 ^ 63) :
    Wanted query headers ↔ headers.length < min query.amount.toNat maxHeaderFetch := by
  rw [Wanted, int_eq, if_pos small]
  simp only [maxHeaderFetch, estHeaderRlpSize, softResponseLimit, lt_min_iff]
  omega

theorem Placed.answers (chain : CanonicalChain db height) (placed : Placed db query start headers)
    (le : headers.length ≤ min query.amount.toNat maxHeaderFetch)
    (stop : ¬ headers.length < min query.amount.toNat maxHeaderFetch ∨
      headerAt db (query.position start headers.length) = none) : Answers db query start headers where
  headers := placed
  distinct := placed.nodup chain
  amount := le.trans (min_le_left _ _)
  complete := by
    rcases stop with full | off
    · rcases min_choice query.amount.toNat maxHeaderFetch with eq | eq
      · exact .inl (by omega)
      · exact .inr (.inl (by omega))
    · exact .inr (.inr (.inr off))

theorem collect_placed (chain : CanonicalChain db height) (small : query.amount.toNat < 2 ^ 63)
    (fair : ∀ k : ℕ, k + 1 < min query.amount.toNat maxHeaderFetch → 0 ≤ query.position start k →
      query.position start k ≤ height → FairStep query (query.position start k))
    (room : maxHeaderFetch ≤ headers.length + i) (placed : Placed db query start headers)
    (le : headers.length ≤ min query.amount.toNat maxHeaderFetch)
    (leads : LeadsTo db query origin (query.position start headers.length)) :
    ∃ reply, collect db query i origin headers = .ok reply ∧ Answers db query start reply := by
  induction i generalizing origin headers with
  | zero =>
    have full : ¬ headers.length < min query.amount.toNat maxHeaderFetch := by
      omega
    exact ⟨headers, rfl, placed.answers chain le (.inl full)⟩
  | succ i ih =>
    by_cases more : headers.length < min query.amount.toNat maxHeaderFetch
    swap
    · exact ⟨headers, collect_of_not_wanted _ (mt (wanted_iff small).1 more),
        placed.answers chain le (.inl more)⟩
    have wanted : Wanted query headers := (wanted_iff small).2 more
    have look := leads.lookup
    cases found : headerAt db (query.position start headers.length) with
    | none =>
      rw [found] at look
      exact ⟨headers, collect_off wanted look, placed.answers chain le (.inr found)⟩
    | some x =>
      rw [found] at look
      have place := leads.place (by rw [found]; exact some_ne_none x)
      have length : (headers ++ [x]).length = headers.length + 1 := length_append
      have placed' := placed.concat found
      have le' : (headers ++ [x]).length ≤ min query.amount.toNat maxHeaderFetch := by omega
      by_cases last : headers.length + 1 < min query.amount.toNat maxHeaderFetch
      swap
      · have full : ¬ Wanted query (headers ++ [x]) := fun w => last (length ▸ (wanted_iff small).1 w)
        exact ⟨_, collect_full chain.toSound chain.rooted wanted look full,
          placed'.answers chain le' (.inl (by omega))⟩
      obtain ⟨nonneg, high⟩ := chain.headerAt_isSome.1 (by rw [found]; rfl)
      obtain ⟨r, step, goes⟩ := advance_fair chain place found (fair _ last nonneg high)
      rw [← query.position_succ, ← length] at goes
      cases r with
      | none => exact ⟨_, collect_last wanted look step, placed'.answers chain le' (.inr goes)⟩
      | some next =>
        rw [collect_next wanted look step]
        exact ih (by omega) placed' le' goes

variable {reply : List Stored}

theorem append_of_collect (ok : collect db query i origin headers = .ok reply) :
    ∃ rest, reply = headers ++ rest := by
  induction i generalizing origin headers with
  | zero =>
    cases ok
    exact ⟨[], (append_nil _).symm⟩
  | succ i ih =>
    rw [collect] at ok
    split_ifs at ok with more
    · obtain ⟨found, -, ok⟩ := bind_eq_ok.1 ok
      cases found with
      | none =>
        cases ok
        exact ⟨[], (append_nil _).symm⟩
      | some x =>
        obtain ⟨next, -, ok⟩ := bind_eq_ok.1 ok
        cases next with
        | none =>
          cases ok
          exact ⟨[x], rfl⟩
        | some next =>
          obtain ⟨rest, rfl⟩ := ih ok
          exact ⟨x :: rest, append_assoc _ _ _⟩
    · cases ok
      exact ⟨[], (append_nil _).symm⟩

theorem getElem_of_collect (sound : db.Sound) (rooted : db.Rooted) {i : ℕ} {x : Stored}
    {reply : List Stored} (wanted : Wanted query headers)
    (look : lookup db query origin = .ok (some x))
    (ok : collect db query (i + 1) origin headers = .ok reply) :
    reply[headers.length]? = some x := by
  obtain ⟨next, step⟩ := advance_eq_ok sound rooted query x origin
  cases next with
  | none =>
    rw [collect_last wanted look step] at ok
    cases ok
    exact getElem?_concat_length
  | some next =>
    rw [collect_next wanted look step] at ok
    obtain ⟨rest, rfl⟩ := append_of_collect ok
    rw [getElem?_append_left (by simp)]
    exact getElem?_concat_length

theorem not_nodup_of_stays (sound : db.Sound) (rooted : db.Rooted) (first : Wanted query headers)
    (second : Wanted query (headers ++ [x])) (look : lookup db query origin = .ok (some x))
    (stays : advance db query x origin = .ok (some origin))
    (ok : collect db query (i + 2) origin headers = .ok reply) : ¬ reply.Nodup := by
  have here := getElem_of_collect sound rooted first look ok
  rw [collect_next first look stays] at ok
  have again := getElem_of_collect sound rooted second look ok
  intro distinct
  rw [List.length_append, List.length_singleton] at again
  have same := (List.nodup_iff_getElem?_ne_getElem?.1 distinct) headers.length (headers.length + 1)
    (Nat.lt_succ_self _) (List.getElem?_eq_some_iff.1 again).1
  exact same (here.trans again.symm)

end Loop

/-! ## Which replies are right -/

section Reply

variable {db : Records} {height : ℕ} {query : HeaderQuery} {start : UInt64} {reply : List Stored}

theorem HeaderQuery.position_zero (query : HeaderQuery) (start : UInt64) :
    query.position start 0 = start.toNat := by
  simp [position]

section

variable (chain : CanonicalChain db height)
include chain

theorem leadsTo_start (starts : query.Starts db start) :
    LeadsTo db query (query.originHash, query.originNumber) start.toNat := by
  unfold HeaderQuery.Starts at starts
  cases mode : query.hashMode with
  | true =>
    rw [if_pos mode] at starts
    exact leadsTo_of_canonical chain mode starts rfl
  | false =>
    rw [if_neg (by simp [mode])] at starts
    have zero : query.originHash = 0 := by simpa [HeaderQuery.hashMode] using mode
    exact leadsTo_of_number mode zero (by rw [starts])

theorem origin_found (starts : query.Starts db start) (le : start.toNat ≤ height) :
    ∃ x, headerAt db start.toNat = some x ∧ lookup db query (query.originHash, query.originNumber) =
      .ok (some x) ∧ At db query (query.originHash, query.originNumber) start.toNat := by
  have leads := leadsTo_start chain starts
  obtain ⟨x, hx⟩ :=
    isSome_iff_exists.1 (chain.headerAt_isSome.2 ⟨Int.natCast_nonneg start.toNat, by exact_mod_cast le⟩)
  refine ⟨x, hx, hx ▸ leads.lookup, leads.place ?_⟩
  rw [hx]
  exact some_ne_none x

theorem answers_of_fair (starts : query.Starts db start) (fair : Fair query start height)
    (ok : getBlockHeaders db query = .ok reply) : Answers db query start reply := by
  have leads := leadsTo_start chain starts
  rw [← query.position_zero] at leads
  by_cases le : start.toNat ≤ height
  · obtain ⟨small, steps⟩ := fair le
    have run : ∃ reply', getBlockHeaders db query = .ok reply' ∧ Answers db query start reply' :=
      collect_placed chain small steps (Nat.le_add_left _ _) nofun (Nat.zero_le _) leads
    obtain ⟨reply', ok', answers⟩ := run
    cases ok.symm.trans ok'
    exact answers
  · have off : headerAt db (query.position start 0) = none := by
      rw [← not_isSome_iff_eq_none, chain.headerAt_isSome, query.position_zero]
      omega
    have look := leads.lookup
    rw [off] at look
    have nothing : getBlockHeaders db query = .ok [] := by
      by_cases wanted : Wanted query []
      · exact collect_off wanted look
      · exact collect_of_not_wanted _ wanted
    cases nothing.symm.trans ok
    exact ⟨nofun, nodup_nil, Nat.zero_le _, .inr (.inr (.inr off))⟩

theorem small_of_answers (le : start.toNat ≤ height) (ok : getBlockHeaders db query = .ok reply)
    (answers : Answers db query start reply) : query.amount.toNat < 2 ^ 63 := by
  by_contra large
  have stop : ¬ Wanted query [] := by
    have lt := query.amount.toNat_lt
    rw [Wanted, int_eq, if_neg large, length_nil]
    omega
  cases (collect_of_not_wanted maxHeaderFetch stop).symm.trans ok
  have on : (headerAt db (query.position start 0)).isSome := by
    rw [query.position_zero]
    exact chain.headerAt_isSome.2 ⟨Int.natCast_nonneg _, by exact_mod_cast le⟩
  rcases answers.complete with h | h | h | h
  · rw [length_nil] at h
    omega
  · exact absurd h (by decide)
  · exact absurd h (by decide)
  · rw [length_nil] at h
    rw [h] at on
    cases on

theorem collect_number_forward (starts : query.Starts db start) (mode : query.hashMode = false)
    (rev : query.reverse = false) (small : query.amount.toNat < 2 ^ 63)
    (asked : k < min query.amount.toNat maxHeaderFetch) (high : query.position start k ≤ height) :
    ∃ headers origin, headers.length = k ∧ At db query origin (query.position start k) ∧
      getBlockHeaders db query = collect db query (maxHeaderFetch - k) origin headers := by
  have stride : query.stride = (query.skip.toNat : ℤ) + 1 := if_neg (by simp [rev])
  have bounded := chain.bounded
  induction k with
  | zero =>
    rw [query.position_zero] at high ⊢
    obtain ⟨x, -, -, place⟩ := origin_found chain starts (by exact_mod_cast high)
    exact ⟨[], _, rfl, place, rfl⟩
  | succ k ih =>
    rw [query.position_succ, stride] at high
    obtain ⟨headers, origin, length, place, eq⟩ := ih (by omega) (by omega)
    have nonneg : 0 ≤ query.position start k := by
      rw [HeaderQuery.position, stride]
      positivity
    obtain ⟨x, hx⟩ := isSome_iff_exists.1 (chain.headerAt_isSome.2 ⟨nonneg, by omega⟩)
    obtain ⟨step, leads⟩ := advance_number_forward (x := x) mode rev place
    have look : lookup db query origin = .ok (some x) := by
      rw [At, if_neg (by simp [mode])] at place
      rw [(leadsTo_of_number mode place.1 place.2).lookup, hx]
    have wanted : Wanted query headers := (wanted_iff small).2 (by omega)
    have fuel : maxHeaderFetch - k = maxHeaderFetch - (k + 1) + 1 := by
      omega
    rw [fuel, collect_next wanted look step] at eq
    refine ⟨_, _, by rw [length_append, length, length_singleton], ?_, eq⟩
    have leads := leads (by omega)
    rw [← query.position_succ] at leads
    apply leads.place
    rw [← isSome_iff_ne_none, chain.headerAt_isSome, query.position_succ, stride]
    omega

/-- A number that wrapped around is on the chain again, where none was asked for. -/
theorem fair_number_forward (starts : query.Starts db start) (mode : query.hashMode = false)
    (rev : query.reverse = false) (small : query.amount.toNat < 2 ^ 63)
    (ok : getBlockHeaders db query = .ok reply) (answers : Answers db query start reply)
    (asked : k + 1 < min query.amount.toNat maxHeaderFetch) (nonneg : 0 ≤ query.position start k)
    (high : query.position start k ≤ height) :
    query.position start k + query.skip.toNat + 1 < 2 ^ 64 := by
  by_contra wraps
  have stride : query.stride = (query.skip.toNat : ℤ) + 1 := if_neg (by simp [rev])
  have hs := query.skip.toNat_lt
  obtain ⟨headers, origin, length, place, eq⟩ :=
    collect_number_forward chain starts mode rev small (Nat.lt_of_succ_lt asked) high
  obtain ⟨x, hx⟩ := isSome_iff_exists.1 (chain.headerAt_isSome.2 ⟨nonneg, high⟩)
  obtain ⟨step, -⟩ := advance_number_forward (x := x) mode rev place
  rw [At, if_neg (by simp [mode])] at place
  obtain ⟨zero, number⟩ := place
  have look : lookup db query origin = .ok (some x) := by
    rw [(leadsTo_of_number mode zero number).lookup, hx]
  have wanted : Wanted query headers := (wanted_iff small).2 (by omega)
  have length' : (headers ++ [x]).length = k + 1 := by rw [length_append, length, length_singleton]
  have wanted' : Wanted query (headers ++ [x]) := (wanted_iff small).2 (by omega)
  have fuel : maxHeaderFetch - k = maxHeaderFetch - (k + 2) + 1 + 1 := by
    omega
  rw [ok, fuel, collect_next wanted look step] at eq
  -- the wrapped number is at most that of the header before it
  have low : (origin.2 + (query.skip + 1)).toNat ≤ height := by
    rw [UInt64.toNat_add, UInt64.toNat_add, UInt64.toNat_one]
    omega
  obtain ⟨y, hy⟩ :=
    isSome_iff_exists.1 (chain.headerAt_isSome.2 ⟨Int.natCast_nonneg _, Int.ofNat_le.2 low⟩)
  have look' : lookup db query (0, origin.2 + (query.skip + 1)) = .ok (some y) := by
    rw [(leadsTo_of_number mode rfl rfl).lookup, hy]
  have get := getElem_of_collect chain.toSound chain.rooted wanted' look' eq.symm
  rw [length'] at get
  have there := answers.headers _ _ get
  rw [query.position_succ, stride, headerAt_of_le db (by omega)] at there
  cases there

end

/-- A query is answered with the headers asked for if and only if it is fair. -/
theorem getBlockHeaders_answers_iff (chain : CanonicalChain db height)
    (starts : query.Starts db start) :
    ∃ reply, getBlockHeaders db query = .ok reply ∧
      (Answers db query start reply ↔ Fair query start height) := by
  obtain ⟨reply, ok⟩ := collect_eq_ok chain.toSound chain.rooted query maxHeaderFetch
    (query.originHash, query.originNumber) []
  refine ⟨reply, ok, fun answers le => ?_, fun fair => answers_of_fair chain starts fair ok⟩
  have small := small_of_answers chain le ok answers
  refine ⟨small, fun k asked nonneg high => ?_⟩
  obtain ⟨x, hx, look, place⟩ := origin_found chain starts le
  have first : Wanted query [] := (wanted_iff small).2 (by simp only [length_nil]; omega)
  have second : Wanted query ([] ++ [x]) :=
    (wanted_iff small).2 (by simp only [nil_append, length_singleton]; omega)
  have repeats (stays : advance db query x (query.originHash, query.originNumber) =
      .ok (some (query.originHash, query.originNumber))) : False :=
    not_nodup_of_stays (i := 190) chain.toSound chain.rooted first second look stays ok answers.distinct
  unfold FairStep
  cases mode : query.hashMode <;> cases rev : query.reverse
  · exact fair_number_forward chain starts mode rev small ok answers asked nonneg high
  · by_contra wraps
    have hs := query.skip.toNat_lt
    have zero : query.originHash = 0 := by simpa [HeaderQuery.hashMode] using mode
    have none : query.skip + 1 = 0 := by
      rw [← UInt64.toNat_inj, UInt64.toNat_add, UInt64.toNat_one, UInt64.toNat_zero]
      omega
    apply repeats
    rw [advance, if_neg (by simp [zero]), if_neg (by simp [zero]), if_pos rev, none,
      if_pos (UInt64.zero_le), UInt64.sub_zero]
  · trivial
  · by_contra wraps
    have set : query.originHash ≠ 0 := by simpa [HeaderQuery.hashMode] using mode
    apply repeats
    rw [advance, if_pos ⟨set, rev⟩, rounds_eq, if_neg wraps]
    rfl

end Reply

theorem genesis_chain : CanonicalChain genesisRecords 0 where
  toSound := sound_genesisRecords
  bounded := by decide
  upto := by
    intro n
    have zero : (⟨1, 0, 0, 0, 0⟩ : Stored).numberU64 = 0 := rfl
    simp only [genesisRecords, Records.commit, zero]
    rw [Nat.le_zero, ← UInt64.toNat_zero, UInt64.toNat_inj]
    split_ifs with eq
    · exact iff_of_true rfl eq
    · exact iff_of_false Bool.false_ne_true eq
  grounded := by
    intro h x hc hx n
    simp only [genesisRecords, Records.commit] at hx
    split_ifs at hx with key
    cases hx
    exact if_neg fun key => absurd (Prod.mk.inj key).2 (by decide)
  linked := by
    intro n h x hc _ ne
    simp only [genesisRecords, Records.commit] at hc
    split_ifs at hc with eq
    exact absurd eq ne

/-- A query that wraps around. -/
def farQuery : HeaderQuery := ⟨0, 0, 2, 0xffffffffffffffff, false⟩

/-- The genesis header is sent twice. -/
theorem skip_wraps_around : CanonicalChain genesisRecords 0 ∧ farQuery.Starts genesisRecords 0 ∧
      getBlockHeaders genesisRecords farQuery = .ok [⟨1, 0, 0, 0, 0⟩, ⟨1, 0, 0, 0, 0⟩] :=
  ⟨genesis_chain, rfl, by decide +kernel⟩

/-! ## A chain with three blocks -/

/-- Three headers. -/
def line : List Stored := [⟨1, 0, 0, 0, 0⟩, ⟨2, 1, 1, 0, 0⟩, ⟨3, 2, 2, 0, 0⟩]

/-- Their records. -/
def lineRecords : Records :=
  { genesisRecords with
    number := fun h => (line.find? fun x => x.hash = h).map fun x => BigEndian.fixed 8 x.number
    canonical := fun n => (line.find? fun x => x.numberU64 = n).map Stored.hash
    header := fun k => line.find? fun x => (x.numberU64, x.hash) = k }

theorem mem_line {n : UInt64} {h : Hash} {x : Stored} (hx : lineRecords.header (n, h) = some x) :
    x ∈ line ∧ x.numberU64 = n ∧ x.hash = h := by
  change line.find? (fun x => (x.numberU64, x.hash) = (n, h)) = some x at hx
  exact ⟨mem_of_find?_eq_some hx, by simpa using find?_some hx⟩

theorem line_chain : CanonicalChain lineRecords 2 where
  filed := by
    intro n h x hx
    obtain ⟨mem, rfl, rfl⟩ := mem_line hx
    exact ⟨rfl, (by decide : ∀ x ∈ line, x.number = x.numberU64.toNat ∧ x.hash ≠ 0) x mem⟩
  numbered := by
    intro n h x hx
    obtain ⟨mem, rfl, rfl⟩ := mem_line hx
    exact (by decide : ∀ x ∈ line, lineRecords.number x.hash =
      some (BigEndian.fixed 8 x.numberU64.toNat)) x mem
  sized := by
    intro h data hd
    obtain ⟨x, -, rfl⟩ := map_eq_some_iff.1 hd
    exact BigEndian.length_fixed ..
  indexed := by
    intro n h hc
    obtain ⟨x, hx, rfl⟩ := map_eq_some_iff.1 hc
    obtain rfl : x.numberU64 = n := by simpa using find?_some hx
    exact (by decide : ∀ x ∈ line, (lineRecords.header (x.numberU64, x.hash)).isSome) x
      (mem_of_find?_eq_some hx)
  bounded := by decide
  upto := by
    intro n
    rw [lineRecords, isSome_map, find?_isSome]
    simp [line, Stored.numberU64, ← UInt64.toNat_inj]
    omega
  grounded := by
    intro h x hc hx n
    obtain ⟨mem, first, rfl⟩ := mem_line hx
    have zero :=
      (by decide : ∀ x ∈ line, x.numberU64 = 0 → ∀ y ∈ line, y.hash ≠ x.parentHash) x mem first
    exact find?_eq_none.2 fun y hy => by simp [zero y hy]
  linked := by
    intro n h x hc hx
    obtain ⟨mem, rfl, rfl⟩ := mem_line hx
    exact (by decide : ∀ x ∈ line, x.numberU64 ≠ 0 →
      lineRecords.canonical (x.numberU64 - 1) = some x.parentHash) x mem

/-- A query for every other header, from the last one down. -/
def backQuery : HeaderQuery := ⟨0, 2, 2, 1, true⟩

theorem backQuery_answered :
    getBlockHeaders lineRecords backQuery = .ok [⟨3, 2, 2, 0, 0⟩, ⟨1, 0, 0, 0, 0⟩] ∧
      Answers lineRecords backQuery 2 [⟨3, 2, 2, 0, 0⟩, ⟨1, 0, 0, 0, 0⟩] := by
  have sent : getBlockHeaders lineRecords backQuery = .ok [⟨3, 2, 2, 0, 0⟩, ⟨1, 0, 0, 0, 0⟩] := by
    decide +kernel
  have starts : backQuery.Starts lineRecords 2 := rfl
  obtain ⟨reply, ok, answers⟩ := getBlockHeaders_answers_iff line_chain starts
  obtain rfl := Except.ok.inj (sent.symm.trans ok)
  exact ⟨sent, answers.2 fun _ => ⟨by decide, fun _ _ _ _ => (by decide : 1 + 1 < 2 ^ 64)⟩⟩

end JuChain.Serve
