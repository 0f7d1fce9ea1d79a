import JuChain.Core.Records

/-!
# Answers to queries of peers

The four queries for headers, bodies, state entries and receipts of `ProtocolManager.handleMsg`
(`p2p/protocol/handler.go`).  Encoding receipts is a parameter.  All lookups but one go through the
header chain, where an unknown hash has number zero; `GetReceiptsByHash` decodes the missing record
and crashes (`handleMsg_returns_iff`).
-/

namespace JuChain.Serve

open Slices

def softResponseLimit : ℕ := 2 * 1024 * 1024

def estHeaderRlpSize : ℕ := 500

def maxHeaderFetch : ℕ := 192

def maxBlockFetch : ℕ := 128

def maxReceiptFetch : ℕ := 256

def maxStateFetch : ℕ := 384

def emptyRootHash : Hash := 0x56e81f171bcc55a6ff8345e692c0f86e5b48e01b996cadc001622fb5e363b421

/-- The error of a handler. -/
inductive Err where
  | decode
  deriving DecidableEq

/-- `getBlockHeadersData`; the origin is a hash, unless it is zero, or a number. -/
structure HeaderQuery where
  originHash : Hash
  originNumber : UInt64
  amount : UInt64
  skip : UInt64
  reverse : Bool

/-- The requests. -/
inductive Msg where
  | getBlockHeaders (query : HeaderQuery)
  | getBlockBodies (items : List (Option Hash))
  | getNodeData (items : List (Option Hash))
  | getReceipts (items : List (Option Hash))

/-- The replies. -/
inductive Reply where
  | headers (headers : List Stored)
  | data (entries : List Bytes)

/-- The records, the trie nodes, and how stored receipts are read and written for the network. -/
structure Node where
  db : Records
  trieNode : Hash → Option Bytes
  Receipts : Type
  decode : Bytes → Option Receipts
  encode : Option Receipts → Option Bytes

/-- The loop over the hashes of a message: fetch until there is enough. -/
def gather (fetch : Hash → Except (Fault Err) (Option Bytes)) (max : ℕ) :
    List (Option Hash) → List Bytes → Except (Fault Err) (List Bytes)
  | items, entries =>
    if entries.flatten.length < softResponseLimit ∧ entries.length < max then
      match items with
      | [] => .ok entries
      | none :: _ => .error (.err .decode)
      | some hash :: items => do
        let entry ← fetch hash
        gather fetch max items (entries ++ entry.toList)
    else .ok entries

/-- `GetBodyRLP`; an empty body counts as missing. -/
def getBodyRLP (node : Node) (hash : Hash) : Except (Fault Err) (Option Bytes) := do
  let number ← node.db.chainBlockNumber hash
  .ok ((node.db.body (number, hash)).filter fun data => data ≠ [])

def getReceiptsByHash (node : Node) (hash : Hash) : Except (Fault Err) (Option node.Receipts) := do
  let number ← node.db.getBlockNumber hash
  .ok (((node.db.receipts (number, hash)).filter fun data => data ≠ []).bind node.decode)

/-- What is sent for a block.  No receipts are sent only if its header says that there are none. -/
def receiptsOf (node : Node) (hash : Hash) : Except (Fault Err) (Option Bytes) := do
  let results ← getReceiptsByHash node hash
  if results.isNone then
    let header ← node.db.getHeaderByHash hash
    if header.all fun x => x.receiptHash ≠ emptyRootHash then .ok none else .ok (node.encode results)
  else .ok (node.encode results)

/-! ## Headers -/

/-- A conversion to `int`. -/
def int (x : UInt64) : ℤ := x.toBitVec.toInt

/-- How often `for i := 0; i < int(skip)+1; i++` runs. -/
def rounds (skip : UInt64) : ℕ := (skip.toBitVec + 1#64).toInt.toNat

/-- The loop towards the genesis block, and the hash it ends with; `none` when a header is
missing. -/
def walkDown (db : Records) : ℕ → Hash → UInt64 → Option Hash
  | 0, hash, _ => some hash
  | i + 1, hash, number => (db.getHeader hash number).bind fun x =>
    walkDown db i x.parentHash (number - 1)

/-- Towards the leaf block: the canonical header after `skip` others, if its ancestor is the origin.
-/
def climb (db : Records) (skip current : UInt64) (hash : Hash) : Except (Fault Err) (Option Hash) :=
  if current + skip + 1 ≤ current then .ok none
  else
    match db.getHeaderByNumber (current + skip + 1) with
    | none => .ok none
    | some header => do
      let hashes ← db.getBlockHashesFromHash header.hash (skip + 1)
      let ancestor ← index hashes skip.toNat
      .ok (if ancestor = hash then some header.hash else none)

/-- `query.Origin` after a header was collected, `none` when there is no next one. -/
def advance (db : Records) (query : HeaderQuery) (x : Stored) (origin : Hash × UInt64) :
    Except (Fault Err) (Option (Hash × UInt64)) :=
  if origin.1 ≠ 0 ∧ query.reverse then
    .ok ((walkDown db (rounds query.skip) origin.1 x.numberU64).map fun hash => (hash, origin.2))
  else if origin.1 ≠ 0 ∧ ¬ query.reverse then
    (climb db query.skip x.numberU64 origin.1).map (Option.map fun hash => (hash, origin.2))
  else if query.reverse then
    .ok (if query.skip + 1 ≤ origin.2 then some (origin.1, origin.2 - (query.skip + 1)) else none)
  else .ok (some (origin.1, origin.2 + (query.skip + 1)))

def HeaderQuery.hashMode (query : HeaderQuery) : Bool := query.originHash ≠ 0

/-- The header at the cursor. -/
def lookup (db : Records) (query : HeaderQuery) (origin : Hash × UInt64) :
    Except (Fault Err) (Option Stored) :=
  if query.hashMode then db.getHeaderByHash origin.1 else .ok (db.getHeaderByNumber origin.2)

/-- The loop that collects headers, at most `maxHeaderFetch`. -/
def collect (db : Records) (query : HeaderQuery) :
    ℕ → Hash × UInt64 → List Stored → Except (Fault Err) (List Stored)
  | 0, _, headers => .ok headers
  | i + 1, origin, headers =>
    if headers.length < int query.amount ∧ headers.length * estHeaderRlpSize < softResponseLimit ∧
        headers.length < maxHeaderFetch then do
      match ← lookup db query origin with
      | none => .ok headers
      | some x =>
        match ← advance db query x origin with
        | none => .ok (headers ++ [x])
        | some next => collect db query i next (headers ++ [x])
    else .ok headers

/-- The handler of `GetBlockHeadersMsg`. -/
def getBlockHeaders (db : Records) (query : HeaderQuery) : Except (Fault Err) (List Stored) :=
  collect db query maxHeaderFetch (query.originHash, query.originNumber) []

/-- `handleMsg` for these requests. -/
def handleMsg (node : Node) : Msg → Except (Fault Err) Reply
  | .getBlockHeaders query => (getBlockHeaders node.db query).map .headers
  | .getBlockBodies items => (gather (getBodyRLP node) maxBlockFetch items []).map .data
  | .getNodeData items =>
    (gather (fun hash => .ok (node.trieNode hash)) maxStateFetch items []).map .data
  | .getReceipts items => (gather (receiptsOf node) maxReceiptFetch items []).map .data

/-! ## Which queries crash -/

section Gather

variable {fetch : Hash → Except (Fault Err) (Option Bytes)} {max : ℕ} {items : List (Option Hash)}
variable {entries : List Bytes}

/-- There is room for another entry. -/
def Room (max : ℕ) (entries : List Bytes) : Prop :=
  entries.flatten.length < softResponseLimit ∧ entries.length < max

/-- The loop gets through the items before `k` and still has room. -/
def Reaches (fetch : Hash → Except (Fault Err) (Option Bytes)) (max : ℕ)
    (items : List (Option Hash)) (entries : List Bytes) (k : ℕ) : Prop :=
  ∃ collected, gather fetch max (items.take k) entries = .ok collected ∧ Room max collected

theorem gather_of_full (full : ¬ Room max entries) : gather fetch max items entries = .ok entries := by
  rw [gather.eq_def]
  exact if_neg full

theorem gather_nil (fetch : Hash → Except (Fault Err) (Option Bytes)) (max : ℕ) (entries : List Bytes) :
    gather fetch max [] entries = .ok entries := by
  exact ite_self _

theorem gather_none (room : Room max entries) :
    gather fetch max (none :: items) entries = .error (.err .decode) := by
  exact if_pos room

theorem gather_some {hash : Hash} (room : Room max entries) :
    gather fetch max (some hash :: items) entries =
      fetch hash >>= fun entry => gather fetch max items (entries ++ entry.toList) := by
  exact if_pos room

theorem not_reaches_of_full (full : ¬ Room max entries) (k : ℕ) :
    ¬ Reaches fetch max items entries k := by
  rintro ⟨collected, ok, room⟩
  rw [gather_of_full full] at ok
  cases ok
  exact full room

theorem reaches_succ {hash : Hash} (room : Room max entries) (k : ℕ) :
    Reaches fetch max (some hash :: items) entries (k + 1) ↔
      ∃ entry, fetch hash = .ok entry ∧ Reaches fetch max items (entries ++ entry.toList) k := by
  unfold Reaches
  simp only [List.take_succ_cons, gather_some room, bind_eq_ok]
  constructor
  · rintro ⟨collected, ⟨entry, ok, run⟩, room'⟩
    exact ⟨entry, ok, collected, run, room'⟩
  · rintro ⟨entry, ok, collected, run, room'⟩
    exact ⟨collected, ⟨entry, ok, run⟩, room'⟩

theorem returns_gather (items : List (Option Hash)) (entries : List Bytes) :
    Returns (gather fetch max items entries) ↔
      ∀ k hash, items[k]? = some (some hash) → Reaches fetch max items entries k →
        Returns (fetch hash) := by
  induction items generalizing entries with
  | nil =>
    rw [gather_nil]
    exact iff_of_true (returns_ok _) nofun
  | cons item items ih =>
    by_cases room : Room max entries
    swap
    · rw [gather_of_full room]
      exact iff_of_true (returns_ok _) fun k _ _ reach => absurd reach (not_reaches_of_full room k)
    cases item with
    | none =>
      rw [gather_none room]
      refine iff_of_true (returns_err _) fun k hash hit => ?_
      rintro ⟨collected, ok, -⟩
      cases k with
      | zero => cases hit
      | succ k =>
        rw [List.take_succ_cons, gather_none room] at ok
        cases ok
    | some hash =>
      rw [gather_some room, returns_bind]
      constructor
      · rintro ⟨first, later⟩ k hash' hit reach
        cases k with
        | zero =>
          cases hit
          exact first
        | succ k =>
          obtain ⟨entry, ok, reach⟩ := (reaches_succ room k).1 reach
          exact (ih _).1 (later entry ok) k hash' hit reach
      · intro all
        refine ⟨all 0 hash rfl ⟨entries, gather_nil _ _ _, room⟩, fun entry ok => (ih _).2
          fun k hash' hit reach => ?_⟩
        exact all (k + 1) hash' hit ((reaches_succ room k).2 ⟨entry, ok, reach⟩)

end Gather

section Crash

variable {db : Records} {node : Node}

theorem toNat_next {current skip : UInt64} (h : ¬ current + skip + 1 ≤ current) :
    (current + skip + 1).toNat = current.toNat + skip.toNat + 1 ∧
      (skip + 1).toNat = skip.toNat + 1 := by
  have hs := skip.toNat_lt
  rw [UInt64.le_iff_toNat_le] at h
  simp only [UInt64.toNat_add, UInt64.toNat_one] at h ⊢
  omega

theorem climb_of_some (sound : db.Sound) {skip current : UInt64} {h : Hash} {header : Stored}
    (hash : Hash)
    (fits : ¬ current + skip + 1 ≤ current)
    (found : db.getHeaderByNumber (current + skip + 1) = some header)
    (hx : db.header (current + skip + 1, h) = some header) :
    climb db skip current hash = index (db.hashesBelow (skip.toNat + 1) header) skip.toNat >>=
      fun ancestor =>
      .ok (if ancestor = hash then some h else none) := by
  obtain ⟨-, skips⟩ := toNat_next fits
  obtain ⟨same, -⟩ := sound.filed hx
  have hashes : (db.getBlockHashesFromHash h (skip + 1) : Except (Fault Err) (List Hash)) =
      .ok (db.hashesBelow (skip.toNat + 1) header) := by
    rw [Records.getBlockHashesFromHash, sound.getHeaderByHash_of_header hx, skips]
    rfl
  rw [climb, if_neg fits, found]
  simp only [same, hashes, ok_bind]

theorem index_eq_ok {hashes : List Hash} {k : ℕ} (enough : k < hashes.length) :
    (index hashes k : Except (Fault Err) Hash) = .ok hashes[k] := by
  rw [index, List.getElem?_eq_getElem enough]

theorem climb_eq_ok (sound : db.Sound) (rooted : db.Rooted) (skip current : UInt64) (hash : Hash) :
    ∃ r, climb db skip current hash = .ok r := by
  by_cases wraps : current + skip + 1 ≤ current
  · exact ⟨none, if_pos wraps⟩
  cases found : db.getHeaderByNumber (current + skip + 1) with
  | none =>
    rw [climb, if_neg wraps, found]
    exact ⟨none, rfl⟩
  | some header =>
    obtain ⟨h, hc, hx⟩ := Records.getHeaderByNumber_eq_some found
    obtain ⟨next, -⟩ := toNat_next wraps
    have length := Records.length_hashesBelow_of_le (by omega : skip.toNat + 1 ≤ _) (rooted _ _ _ hc hx)
    rw [climb_of_some sound hash wraps found hx, index_eq_ok (by omega)]
    exact ⟨_, rfl⟩

theorem advance_eq_ok (sound : db.Sound) (rooted : db.Rooted) (query : HeaderQuery) (x : Stored)
    (origin : Hash × UInt64) : ∃ r, advance db query x origin = .ok r := by
  unfold advance
  split_ifs
  · exact ⟨_, rfl⟩
  · obtain ⟨r, eq⟩ := climb_eq_ok sound rooted query.skip x.numberU64 origin.1
    rw [eq]
    exact ⟨_, rfl⟩
  · exact ⟨_, rfl⟩
  · exact ⟨_, rfl⟩
  · exact ⟨_, rfl⟩

theorem lookup_eq_ok (sound : db.Sound) (query : HeaderQuery) (origin : Hash × UInt64) :
    ∃ found, lookup db query origin = .ok found := by
  unfold lookup
  split_ifs
  · obtain ⟨n, eq⟩ := Records.Filed.chainBlockNumber_eq_ok (ε := Err) sound.toFiled origin.1
    rw [Records.getHeaderByHash, eq]
    exact ⟨_, rfl⟩
  · exact ⟨_, rfl⟩

theorem collect_eq_ok (sound : db.Sound) (rooted : db.Rooted) (query : HeaderQuery) (i : ℕ)
    (origin : Hash × UInt64) (headers : List Stored) :
    ∃ reply, collect db query i origin headers = .ok reply := by
  induction i generalizing origin headers with
  | zero => exact ⟨headers, rfl⟩
  | succ i ih =>
    rw [collect]
    split_ifs with more
    · obtain ⟨found, look⟩ := lookup_eq_ok sound query origin
      rw [look, ok_bind]
      cases found with
      | none => exact ⟨headers, rfl⟩
      | some x =>
        obtain ⟨next, step⟩ := advance_eq_ok sound rooted query x origin
        simp only [step, ok_bind]
        cases next with
        | none => exact ⟨_, rfl⟩
        | some next => exact ih next _
    · exact ⟨headers, rfl⟩

theorem returns_getBodyRLP (sound : node.db.Sound) (hash : Hash) : Returns (getBodyRLP node hash) :=
  returns_bind.2 ⟨sound.returns_chainBlockNumber hash, fun _ _ => returns_ok _⟩

theorem returns_receiptsOf (sound : node.db.Sound) (hash : Hash) :
    Returns (receiptsOf node hash) ↔ (node.db.number hash).isSome := by
  have results : Returns (getReceiptsByHash node hash) ↔ (node.db.number hash).isSome := by
    rw [getReceiptsByHash, returns_bind, sound.returns_getBlockNumber]
    exact and_iff_left fun _ _ => returns_ok _
  rw [receiptsOf, returns_bind, results]
  refine and_iff_left fun results _ => ?_
  split_ifs
  · refine returns_bind.2 ⟨sound.returns_getHeaderByHash hash, fun header _ => ?_⟩
    split_ifs
    · exact returns_ok _
    · exact returns_ok _
  · exact returns_ok _

theorem collect_of_error {query : HeaderQuery} {i : ℕ} {origin : Hash × UInt64}
    {headers : List Stored} {x : Stored}
    {e : Fault Err}
    (more : headers.length < int query.amount ∧ headers.length * estHeaderRlpSize < softResponseLimit ∧
      headers.length < maxHeaderFetch) (look : lookup db query origin = .ok (some x))
    (step : advance db query x origin = .error e) : collect db query (i + 1) origin headers =
      .error e := by
  rw [collect, if_pos more, look, ok_bind]
  simp only [step, error_bind]

theorem collect_crashes (sound : db.Sound) {g h : Hash} {genesis x : Stored} {n : UInt64}
    (stored : db.header (0, g) = some genesis)
    (hc : db.canonical n = some h) (hx : db.header (n, h) = some x)
    (short : (db.hashesBelow n.toNat x).length < n.toNat) :
    getBlockHeaders db ⟨g, 0, 1, n - 1, false⟩ = .error .panic := by
  have ne : n ≠ 0 := by
    rintro rfl
    exact absurd short (Nat.not_lt_zero _)
  have pred := toNat_pred ne
  have next : (0 : UInt64) + (n - 1) + 1 = n := by rw [UInt64.zero_add, UInt64.sub_add_cancel]
  have set : g ≠ 0 := (sound.filed stored).2.2
  have fits : ¬ (0 : UInt64) + (n - 1) + 1 ≤ 0 := by
    rw [next, UInt64.le_iff_toNat_le, UInt64.toNat_zero]
    omega
  have outside : (index (db.hashesBelow ((n - 1).toNat + 1) x) (n - 1).toNat : Except (Fault Err)
      Hash) = .error .panic := by
    rw [index, pred, List.getElem?_eq_none (by omega)]
  have step : advance db ⟨g, 0, 1, n - 1, false⟩ genesis (g, 0) = .error .panic := by
    rw [advance, if_neg (by simp), if_pos ⟨set, by simp⟩, sound.numberU64_eq stored,
      climb_of_some sound g fits (by rw [next, sound.getHeaderByNumber_of_canonical hc hx])
        (by rw [next, hx]), outside]
    rfl
  have look : lookup db ⟨g, 0, 1, n - 1, false⟩ (g, 0) = .ok (some genesis) := by
    rw [lookup, if_pos (by simpa [HeaderQuery.hashMode] using set),
      sound.getHeaderByHash_of_header stored]
  have first : ((0 : ℕ) : ℤ) < int 1 ∧ 0 * estHeaderRlpSize < softResponseLimit ∧
    0 < maxHeaderFetch := by decide
  exact collect_of_error first look step

/-- A query for receipts is answered if every hash it gets to has a number, one for headers if
canonical headers have their ancestors, all others always. -/
theorem handleMsg_returns_iff (sound : node.db.Sound) {g : Hash} {genesis : Stored}
    (stored : node.db.header (0, g) = some genesis) :
    (∀ items, Returns (handleMsg node (.getBlockBodies items))) ∧
    (∀ items, Returns (handleMsg node (.getNodeData items))) ∧
    (∀ items, Returns (handleMsg node (.getReceipts items)) ↔ ∀ k hash, items[k]? = some (some hash) →
      Reaches (receiptsOf node) maxReceiptFetch items [] k → (node.db.number hash).isSome) ∧
    ((∀ query, Returns (handleMsg node (.getBlockHeaders query))) ↔ node.db.Rooted) := by
  refine ⟨fun items => ?_, fun items => ?_, fun items => ?_, fun all => ?_, fun rooted query => ?_⟩
  · exact (returns_map _).2
      ((returns_gather items []).2 fun _ hash _ _ => returns_getBodyRLP sound hash)
  · exact (returns_map _).2 ((returns_gather items []).2 fun _ hash _ _ => returns_ok _)
  · rw [handleMsg, returns_map, returns_gather]
    exact forall₄_congr fun k hash _ _ => returns_receiptsOf sound hash
  · intro n h x hc hx
    by_contra ne
    have short := lt_of_le_of_ne (Records.length_hashesBelow_le n.toNat x) ne
    have returns := all ⟨g, 0, 1, n - 1, false⟩
    rw [handleMsg, collect_crashes sound stored hc hx short] at returns
    exact not_returns_panic returns
  · obtain ⟨reply, eq⟩ :=
      collect_eq_ok sound rooted query maxHeaderFetch (query.originHash, query.originNumber) []
    rw [handleMsg, getBlockHeaders, eq]
    exact returns_ok _

end Crash

/-- The records of a genesis block. -/
def genesisRecords : Records := .commit ⟨1, 0, 0, 0, 0⟩ [] []

/-- A node with that block. -/
def genesisNode : Node where
  db := genesisRecords
  trieNode := fun _ => none
  Receipts := Unit
  decode := fun _ => none
  encode := fun _ => none

theorem sound_genesisRecords : genesisRecords.Sound := Records.sound_commit _ _ _ rfl (by decide)

/-- A peer asks for the receipts of a block that does not exist. -/
theorem unknown_receipts_crash :
    genesisNode.db.Sound ∧ genesisNode.db.header (0, 1) = some ⟨1, 0, 0, 0, 0⟩ ∧
      handleMsg genesisNode (.getReceipts [some 7]) = .error .panic :=
  ⟨sound_genesisRecords, rfl, rfl⟩

theorem unknown_body_returns :
    genesisNode.db.Sound ∧ genesisNode.db.number 7 = none ∧
      Returns (handleMsg genesisNode (.getBlockBodies [some 7])) :=
  ⟨sound_genesisRecords, rfl,
    (handleMsg_returns_iff sound_genesisRecords (rfl : genesisRecords.header (0, 1) = _)).1 [some 7]⟩

end JuChain.Serve
