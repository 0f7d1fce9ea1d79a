import JuChain.Core.Types
import JuChain.Lib.BigEndian
import JuChain.Lib.Slices

/-!
# The records of the chain database

The accessors of `core/database_util.go` and `core/headerchain.go`, without caches.  `Filed` and
`Sound` are what all writers and deleters keep.
-/

namespace JuChain

open BigEndian Slices List Option UInt64

/-- A stored header, as far as it is read here, with the value of `Hash()`.  A decoded number is not
negative. -/
structure Stored where
  hash : Hash
  parentHash : Hash
  number : ℕ
  root : Hash
  receiptHash : Hash
  deriving DecidableEq

/-- `Number.Uint64`. -/
def Stored.numberU64 (x : Stored) : UInt64 := UInt64.ofNat x.number

/-- The database.  A header that does not decode counts as missing. -/
structure Records where
  /-- `H` + hash -/
  number : Hash → Option Bytes
  /-- `h` + number + `n` -/
  canonical : UInt64 → Option Hash
  /-- `h` + number + hash -/
  header : UInt64 × Hash → Option Stored
  /-- `b` + number + hash -/
  body : UInt64 × Hash → Option Bytes
  /-- `r` + number + hash -/
  receipts : UInt64 × Hash → Option Bytes
  headHeader : Option Hash
  headBlock : Option Hash
  headFast : Option Hash

/-- `binary.BigEndian.Uint64`, which reads eight bytes. -/
def bigEndianUint64 {ε : Type} (data : Bytes) : Except (Fault ε) UInt64 :=
  if data.length < 8 then .error .panic else .ok (UInt64.ofNat (value (data.take 8)))

namespace Records

variable {ε : Type}
variable (db : Records)

/-- `core.GetBlockNumber`: what was not found is decoded as well. -/
def getBlockNumber (hash : Hash) : Except (Fault ε) UInt64 := bigEndianUint64 ((db.number hash).getD [])

/-- `HeaderChain.GetBlockNumber`: zero when there is no record. -/
def chainBlockNumber (hash : Hash) : Except (Fault ε) UInt64 :=
  match db.number hash with
  | none => .ok 0
  | some [] => .ok 0
  | some data => bigEndianUint64 data

/-- `GetCanonicalHash`: zero when there is none. -/
def getCanonicalHash (number : UInt64) : Hash := (db.canonical number).getD 0

def getHeader (hash : Hash) (number : UInt64) : Option Stored := db.header (number, hash)

def getHeaderByHash (hash : Hash) : Except (Fault ε) (Option Stored) :=
  (db.chainBlockNumber hash).map (db.getHeader hash)

def getHeaderByNumber (number : UInt64) : Option Stored :=
  if db.getCanonicalHash number = 0 then none else db.getHeader (db.getCanonicalHash number) number

/-- The loop of `GetBlockHashesFromHash`. -/
def hashesBelow (db : Records) : ℕ → Stored → List Hash
  | 0, _ => []
  | i + 1, x =>
    match db.getHeader x.parentHash (x.numberU64 - 1) with
    | none => []
    | some p => x.parentHash :: if p.number = 0 then [] else db.hashesBelow i p

def getBlockHashesFromHash (hash : Hash) (max : UInt64) : Except (Fault ε) (List Hash) :=
  (db.getHeaderByHash hash).map fun header => header.elim [] (db.hashesBelow max.toNat)

/-- The records of a genesis block. -/
def commit (genesis : Stored) (body receipts : Bytes) : Records where
  number := fun h => if h = genesis.hash then some (fixed 8 genesis.number) else none
  canonical := fun n => if n = genesis.numberU64 then some genesis.hash else none
  header := fun k => if k = (genesis.numberU64, genesis.hash) then some genesis else none
  body := fun k => if k = (genesis.numberU64, genesis.hash) then some body else none
  receipts := fun k => if k = (genesis.numberU64, genesis.hash) then some receipts else none
  headHeader := some genesis.hash
  headBlock := some genesis.hash
  headFast := some genesis.hash

/-- Headers are filed under their number and hash. -/
structure Filed (db : Records) : Prop where
  filed : ∀ {n h x}, db.header (n, h) = some x → x.hash = h ∧ x.number = n.toNat ∧ h ≠ 0
  numbered : ∀ {n h x}, db.header (n, h) = some x → db.number h = some (fixed 8 n.toNat)
  sized : ∀ {h data}, db.number h = some data → data.length = 8

/-- Moreover the canonical numbers have headers. -/
structure Sound (db : Records) : Prop extends db.Filed where
  indexed : ∀ {n h}, db.canonical n = some h → (db.header (n, h)).isSome

/-- Every canonical header has its ancestors, as far as `GetBlockHashesFromHash` finds them. -/
def Rooted : Prop :=
  ∀ n h x, db.canonical n = some h → db.header (n, h) = some x → (db.hashesBelow n.toNat x).length =
    n.toNat

end Records

section Sound

variable {ε : Type} {db : Records} {n : UInt64} {h : Hash} {x : Stored}

theorem toNat_pred (ne : n ≠ 0) : (n - 1).toNat + 1 = n.toNat := by
  have pos : n.toNat ≠ 0 := fun zero => ne (UInt64.toNat_inj.1 zero)
  rw [UInt64.toNat_sub_of_le _ _ (UInt64.le_iff_toNat_le.2 (by rw [UInt64.toNat_one]; omega)),
    UInt64.toNat_one]
  omega

theorem bigEndianUint64_fixed (n : UInt64) :
    (bigEndianUint64 (fixed 8 n.toNat) : Except (Fault ε) UInt64) = .ok n := by
  have lt := n.toNat_lt
  have long : ¬ (fixed 8 n.toNat).length < 8 := by rw [length_fixed]; exact lt_irrefl 8
  rw [bigEndianUint64, if_neg long, List.take_of_length_le (length_fixed 8 _).le, value_fixed,
    Nat.mod_eq_of_lt (by norm_num at lt ⊢; exact lt), UInt64.ofNat_toNat]

theorem returns_bigEndianUint64 {data : Bytes} :
    Returns (bigEndianUint64 data : Except (Fault ε) UInt64) ↔ 8 ≤ data.length := by
  unfold bigEndianUint64
  split_ifs with short
  · exact iff_of_false not_returns_panic (by omega)
  · exact iff_of_true (returns_ok _) (by omega)

theorem Records.chainBlockNumber_of_record (record : db.number h = some (fixed 8 n.toNat)) :
    (db.chainBlockNumber h : Except (Fault ε) UInt64) = .ok n := by
  unfold chainBlockNumber
  split
  · simp_all
  · simp_all [fixed]
  · rename_i data _ hit
    rw [hit, some.injEq] at record
    rw [record, bigEndianUint64_fixed]

namespace Records.Filed

section

variable (filed : db.Filed)
include filed

theorem numberU64_eq (hx : db.header (n, h) = some x) : x.numberU64 = n := by
  rw [Stored.numberU64, (filed.filed hx).2.1, UInt64.ofNat_toNat]

theorem chainBlockNumber_of_header (hx : db.header (n, h) = some x) :
    (db.chainBlockNumber h : Except (Fault ε) UInt64) = .ok n :=
  chainBlockNumber_of_record (filed.numbered hx)

theorem getHeaderByHash_of_header (hx : db.header (n, h) = some x) :
    (db.getHeaderByHash h : Except (Fault ε) (Option Stored)) = .ok (some x) := by
  rw [getHeaderByHash, filed.chainBlockNumber_of_header hx]
  exact congrArg Except.ok hx

theorem chainBlockNumber_eq_ok (h : Hash) :
    ∃ n, (db.chainBlockNumber h : Except (Fault ε) UInt64) = .ok n := by
  unfold chainBlockNumber
  split
  · exact ⟨0, rfl⟩
  · exact ⟨0, rfl⟩
  · rename_i data _ hit
    exact ⟨_, if_neg (not_lt.2 (filed.sized hit).ge)⟩

theorem returns_chainBlockNumber (h : Hash) :
    Returns (db.chainBlockNumber h : Except (Fault ε) UInt64) := by
  obtain ⟨n, ok⟩ := chainBlockNumber_eq_ok (ε := ε) filed h
  rw [ok]
  exact returns_ok n

theorem returns_getHeaderByHash (h : Hash) :
    Returns (db.getHeaderByHash h : Except (Fault ε) (Option Stored)) :=
  (returns_map _).2 (filed.returns_chainBlockNumber h)

theorem returns_getBlockNumber (h : Hash) :
    Returns (db.getBlockNumber h : Except (Fault ε) UInt64) ↔ (db.number h).isSome := by
  rw [getBlockNumber, returns_bigEndianUint64]
  cases hit : db.number h with
  | none => simp
  | some data => simp [filed.sized hit]

theorem getHeaderByNumber_of_canonical (hc : db.canonical n = some h) (hx : db.header (n, h) = some x) :
    db.getHeaderByNumber n = some x := by
  have hash : db.getCanonicalHash n = h := by rw [getCanonicalHash, hc, getD_some]
  rw [getHeaderByNumber, hash, if_neg (filed.filed hx).2.2]
  exact hx

end

end Records.Filed

namespace Records

theorem getHeaderByNumber_eq_some (hx : db.getHeaderByNumber n = some x) :
    ∃ h, db.canonical n = some h ∧ db.header (n, h) = some x := by
  unfold getHeaderByNumber at hx
  split_ifs at hx with zero
  cases hc : db.canonical n with
  | none => exact absurd (by rw [getCanonicalHash, hc, getD_none]) zero
  | some h =>
    rw [getCanonicalHash, hc, getD_some] at hx
    exact ⟨h, rfl, hx⟩

theorem length_hashesBelow_le (i : ℕ) (x : Stored) : (db.hashesBelow i x).length ≤ i := by
  induction i generalizing x with
  | zero => exact le_rfl
  | succ i ih =>
    rw [hashesBelow]
    cases db.getHeader x.parentHash (x.numberU64 - 1) with
    | none => exact Nat.zero_le _
    | some p =>
      rw [length_cons]
      split_ifs with genesis
      · exact Nat.succ_le_succ (Nat.zero_le i)
      · exact Nat.succ_le_succ (ih p)

theorem length_hashesBelow_of_le {i k : ℕ} (le : i ≤ k) (all : (db.hashesBelow k x).length = k) :
    (db.hashesBelow i x).length = i := by
  induction i generalizing k x with
  | zero => rfl
  | succ i ih =>
    obtain ⟨k, rfl⟩ : ∃ m, k = m + 1 := ⟨k - 1, by omega⟩
    rw [hashesBelow] at all ⊢
    cases hp : db.getHeader x.parentHash (x.numberU64 - 1) with
    | none =>
      rw [hp] at all
      cases all
    | some p =>
      rw [hp] at all
      simp only [length_cons, Nat.add_right_cancel_iff] at all ⊢
      split_ifs at all ⊢ with genesis
      · rw [length_nil] at all ⊢
        omega
      · exact ih (by omega) all

end Records

theorem Records.sound_commit (genesis : Stored) (body receipts : Bytes)
    (number : genesis.number = 0) (hash : genesis.hash ≠ 0) :
    (commit genesis body receipts).Sound := by
  have zero : genesis.numberU64 = 0 := by rw [Stored.numberU64, number]; rfl
  have only {n : UInt64} {h : Hash} {x : Stored}
    (hx : (commit genesis body receipts).header (n, h) = some x) :
      n = 0 ∧ h = genesis.hash ∧ x = genesis := by
    simp only [commit] at hx
    split_ifs at hx with key
    obtain ⟨rfl, rfl⟩ := Prod.mk.inj key
    exact ⟨zero, rfl, (some.inj hx).symm⟩
  refine ⟨⟨?_, ?_, ?_⟩, ?_⟩
  · intro n h x hx
    obtain ⟨rfl, rfl, rfl⟩ := only hx
    exact ⟨rfl, number, hash⟩
  · intro n h x hx
    obtain ⟨rfl, rfl, rfl⟩ := only hx
    simp only [commit, if_true, number]
    rfl
  · intro h data hd
    simp only [commit] at hd
    split_ifs at hd
    rw [← some.inj hd, length_fixed]
  · intro n h hc
    simp only [commit] at hc
    split_ifs at hc with key
    rw [← some.inj hc, key]
    simp [commit]

end Sound

end JuChain
