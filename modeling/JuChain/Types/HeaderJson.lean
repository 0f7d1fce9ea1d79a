import JuChain.Common.Hexutil
import JuChain.Types.Header

/-!
# Headers as JSON

`Header.MarshalJSON` and `Header.UnmarshalJSON` of `core/types/block.go`.  What `encoding/json` does
with a member of an object is the parameter `JsonLib`.  `MarshalJSON` does not copy `Round`,
`Round2` and `PresidentId`; `UnmarshalJSON` reads through five pointers before it has checked them.
-/

namespace JuChain.Types

open BigEndian RLP JuChain.Rlp List Option Hexutil

/-! ## Fields -/

/-- The fields that both structs of the codec have, in their order. -/
inductive Field where
  | parentHash | uncleHash | coinbase | root | txHash | receiptHash | bloom | difficulty | number
  | gasLimit | gasUsed
  | time | extra | mixDigest | nonce | round | round2 | presidentId | dappID | dappMainHash
  deriving DecidableEq

namespace Field

/-- The fields in order. -/
def all : List Field :=
  [parentHash, uncleHash, coinbase, root, txHash, receiptHash, bloom, difficulty, number, gasLimit,
  gasUsed, time, extra, mixDigest, nonce, round, round2, presidentId, dappID, dappMainHash]

/-- The key of a field. -/
def name : Field → String
  | parentHash => "parentHash"
  | uncleHash => "sha3Uncles"
  | coinbase => "miner"
  | root => "stateRoot"
  | txHash => "transactionsRoot"
  | receiptHash => "receiptsRoot"
  | bloom => "logsBloom"
  | difficulty => "difficulty"
  | number => "number"
  | gasLimit => "gasLimit"
  | gasUsed => "gasUsed"
  | time => "timestamp"
  | extra => "extraData"
  | mixDigest => "mixHash"
  | nonce => "nonce"
  | round => "round"
  | round2 => "round2"
  | presidentId => "presidentId"
  | dappID => "dappID"
  | dappMainHash => "dappMainHash"

/-- The type of a field. -/
abbrev Value : Field → Type
  | parentHash | uncleHash | root | txHash | receiptHash | mixDigest | dappMainHash => Hash
  | coinbase | dappID => Address
  | bloom => Bloom
  | difficulty | number | time => ℤ
  | gasLimit | gasUsed | round | round2 => UInt64
  | extra | presidentId => Bytes
  | nonce => BlockNonce

end Field

/-! ## JSON -/

/-- A JSON value: null, the text of a string, or that of anything else. -/
inductive Json where
  | null
  | str (raw : Bytes)
  | lit (text : Bytes)
  deriving DecidableEq

/-- An object, with its members in order. -/
abbrev Document := List (String × Json)

/-- The errors of a field. -/
inductive FieldErr where
  | nonString
  | hex (e : Hexutil.Err)
  | number
  deriving DecidableEq

/-- The character is written as it is. -/
def Plain (c : UInt8) : Prop := 0x20 ≤ c ∧ c < 0x7f ∧ c ≠ 34 ∧ c ≠ 92

/-- What `encoding/json` does with the texts of strings and with keys. -/
structure JsonLib where
  quote : Bytes → Bytes
  unquote : Bytes → Bytes
  fieldOf : String → Option Field
  quote_nil : quote [] = []
  unquote_plain : ∀ s, (∀ c ∈ s, Plain c) → unquote s = s
  fieldOf_name : ∀ f, fieldOf f.name = some f
  fieldOf_hash : fieldOf "hash" = none

variable (L : JsonLib) (keccak : Bytes → Hash)

/-- A decimal number. -/
def decimal (i : UInt64) : Bytes :=
  if i = 0 then [48] else (Nat.digits 10 i.toNat).reverse.map fun d => UInt8.ofNat (48 + d)

/-- `strconv.ParseUint` in base ten with 64 bits. -/
def parseUint (text : Bytes) : Except FieldErr UInt64 :=
  let n := text.foldl (fun n c => n * 10 + (c.toNat - 48)) 0
  if text ≠ [] ∧ (∀ c ∈ text, 48 ≤ c ∧ c ≤ 57) ∧ n < 2 ^ 64 then .ok (UInt64.ofNat n)
    else .error .number

/-- An `UnmarshalJSON` of `hexutil` or `common`, which strips the quotes. -/
def hexJson {α : Type} (dec : Bytes → Except Hexutil.Err α) : Json → Except FieldErr α
  | .str raw => (dec raw).mapError .hex
  | _ => .error .nonString

/-- An `UnmarshalText`: it gets the string that `encoding/json` has unquoted. -/
def hexText {α : Type} (L : JsonLib) (dec : Bytes → Except Hexutil.Err α) : Json → Except FieldErr α
  | .str raw => (dec (L.unquote raw)).mapError .hex
  | _ => .error .nonString

/-- `Hash.UnmarshalJSON`. -/
def decodeHash (raw : Bytes) : Except Hexutil.Err Hash :=
  (unmarshalFixed "common.Hash" 32 raw).map bytesToHash

/-- `Address.UnmarshalJSON`. -/
def decodeAddress (raw : Bytes) : Except Hexutil.Err Address :=
  (unmarshalFixed "common.Address" 20 raw).map bytesToAddress

/-- `Bloom.UnmarshalText`. -/
def decodeBloom (raw : Bytes) : Except Hexutil.Err Bloom :=
  (unmarshalFixed "Bloom" 256 raw).map fun bs => BitVec.ofNat 2048 (value bs)

/-- `BlockNonce.UnmarshalText`. -/
def decodeNonce (raw : Bytes) : Except Hexutil.Err BlockNonce :=
  (unmarshalFixed "BlockNonce" 8 raw).map fun bs => BitVec.ofNat 64 (value bs)

/-- How a field is read from a value other than null. -/
def Field.decode : (f : Field) → Json → Except FieldErr f.Value
  | parentHash | uncleHash | root | txHash | receiptHash | mixDigest | dappMainHash =>
    hexJson decodeHash
  | coinbase | dappID => hexJson decodeAddress
  | bloom => hexText L decodeBloom
  | difficulty | number | time => hexJson unmarshalBig
  | gasLimit | gasUsed => hexJson unmarshalUint64
  | extra => hexJson unmarshalBytes
  | nonce => hexText L decodeNonce
  | round | round2 => fun
    | .lit text => parseUint text
    | _ => .error .number
  | presidentId => fun
    | .str raw => .ok (L.unquote raw)
    | _ => .error .nonString

/-- The value as it is written. -/
def Field.encode : (f : Field) → f.Value → Json
  | parentHash | uncleHash | root | txHash | receiptHash | mixDigest | dappMainHash =>
    fun h => .str (marshalBytes (hashBytes h))
  | coinbase | dappID => fun a => .str (marshalBytes (addressBytes a))
  | bloom => fun b => .str (marshalBytes (bloomBytes b))
  | difficulty | number | time => fun i => .str (marshalBig i)
  | gasLimit | gasUsed => fun i => .str (marshalUint64 i)
  | extra => fun b => .str (marshalBytes b)
  | nonce => fun n => .str (marshalBytes (nonceBytes n))
  | round | round2 => fun i => .lit (decimal i)
  | presidentId => fun s => .str (L.quote s)

/-- The struct that `MarshalJSON` fills in, but for `Round`, `Round2` and `PresidentId`. -/
def Header.enc (h : Header) : (f : Field) → Option f.Value
  | .parentHash => some h.parentHash
  | .uncleHash => some h.uncleHash
  | .coinbase => some h.coinbase
  | .root => some h.root
  | .txHash => some h.txHash
  | .receiptHash => some h.receiptHash
  | .bloom => some h.bloom
  | .difficulty => h.difficulty
  | .number => h.number
  | .gasLimit => some h.gasLimit
  | .gasUsed => some h.gasUsed
  | .time => h.time
  | .extra => some h.extra
  | .mixDigest => some h.mixDigest
  | .nonce => some h.nonce
  | .round => some 0
  | .round2 => some 0
  | .presidentId => some []
  | .dappID => some h.dappID
  | .dappMainHash => some h.dappMainHash

/-- A member of the object. -/
def member (enc : (f : Field) → Option f.Value) (f : Field) : String × Json :=
  (f.name, (enc f).elim .null (f.encode L))

/-- `Header.MarshalJSON`. -/
def Header.marshalJSON (h : Header) : Document :=
  Field.all.map (member L h.enc) ++ [("hash", .str (marshalBytes (hashBytes (h.hash keccak))))]

/-! ## UnmarshalJSON -/

/-- The struct of pointers that `UnmarshalJSON` has `encoding/json` fill in. -/
abbrev Dec := (f : Field) → Option f.Value

/-- What `json.Unmarshal` does with a member: null makes the pointer nil, and other keys are
skipped. -/
def Dec.store (dec : Dec) (m : String × Json) : Except FieldErr Dec :=
  match L.fieldOf m.1 with
  | none => .ok dec
  | some f => if m.2 = .null then .ok (Function.update dec f none)
    else (f.decode L m.2).map fun v => Function.update dec f (some v)

/-- `json.Unmarshal`. -/
def jsonUnmarshal (doc : Document) : Except FieldErr Dec := doc.foldlM (Dec.store L) fun _ => none

/-- One statement of `UnmarshalJSON`: it fails, or it writes to the target. -/
abbrev Statement := Except (Fault String) (Header → Header)

section Statements

variable {α : Type}

/-- A missing field is an error. -/
def check (p : Option α) (msg : String) : Statement := p.elim (.error (.err msg)) fun _ => .ok id

/-- A nil pointer is dereferenced, or its value is assigned. -/
def assign (p : Option α) (set : α → Header → Header) : Statement :=
  p.elim (.error .panic) fun v => .ok (set v)

/-- The check for a required field, and its assignment. -/
def requiredField (p : Option α) (msg : String) (set : α → Header → Header) : List Statement :=
  [check p msg, assign p set]

end Statements

/-- The statements after `Round`.  Four more pointers are not checked. -/
def laterStatements (dec : Dec) : List Statement :=
  [assign (dec .round2) fun v h => { h with round2 := v },
    assign (dec .presidentId) fun v h => { h with presidentId := v },
    assign (dec .dappID) fun v h => { h with dappID := v },
    assign (dec .dappMainHash) fun v h => { h with dappMainHash := v },
    check (dec .uncleHash) "missing required field 'PresidentId' for Header",
    assign (dec .parentHash) fun v h => { h with parentHash := v }] ++
  requiredField (dec .uncleHash) "missing required field 'sha3Uncles' for Header"
    (fun v h => { h with uncleHash := v }) ++
  requiredField (dec .coinbase) "missing required field 'miner' for Header"
    (fun v h => { h with coinbase := v }) ++
  requiredField (dec .root) "missing required field 'stateRoot' for Header"
    (fun v h => { h with root := v }) ++
  requiredField (dec .txHash) "missing required field 'transactionsRoot' for Header"
    (fun v h => { h with txHash := v }) ++
  requiredField (dec .receiptHash) "missing required field 'receiptsRoot' for Header"
    (fun v h => { h with receiptHash := v }) ++
  requiredField (dec .bloom) "missing required field 'logsBloom' for Header"
    (fun v h => { h with bloom := v }) ++
  requiredField (dec .difficulty) "missing required field 'difficulty' for Header"
    (fun v h => { h with difficulty := some v }) ++
  requiredField (dec .number) "missing required field 'number' for Header"
    (fun v h => { h with number := some v }) ++
  requiredField (dec .gasLimit) "missing required field 'gasLimit' for Header"
    (fun v h => { h with gasLimit := v }) ++
  requiredField (dec .gasUsed) "missing required field 'gasUsed' for Header"
    (fun v h => { h with gasUsed := v }) ++
  requiredField (dec .time) "missing required field 'timestamp' for Header"
    (fun v h => { h with time := some v }) ++
  requiredField (dec .extra) "missing required field 'extraData' for Header"
    (fun v h => { h with extra := v }) ++
  requiredField (dec .mixDigest) "missing required field 'mixHash' for Header"
    (fun v h => { h with mixDigest := v }) ++
  requiredField (dec .nonce) "missing required field 'nonce' for Header"
    (fun v h => { h with nonce := v })

/-- The statements after `json.Unmarshal`.  `Round` is set without a check. -/
def statements (dec : Dec) : List Statement :=
  check (dec .parentHash) "missing required field 'parentHash' for Header" ::
    assign (dec .round) (fun v h => { h with round := v }) :: laterStatements dec

/-- Executes statements: what the target holds at the end, and how it came. -/
def execute : List Statement → Header → Header × Except (Fault String) Unit
  | [], h => (h, .ok ())
  | .error e :: _, h => (h, .error e)
  | .ok f :: rest, h => execute rest (f h)

/-- How `UnmarshalJSON` fails: as `json.Unmarshal` did, or with an error of its own. -/
inductive HeaderErr where
  | json (e : FieldErr)
  | missing (msg : String)
  deriving DecidableEq

/-- `Header.UnmarshalJSON`. -/
def Header.unmarshalJSON (doc : Document) (h : Header) : Header × Except (Fault HeaderErr) Unit :=
  match jsonUnmarshal L doc with
  | .error e => (h, .error (.err (.json e)))
  | .ok dec => ((execute (statements dec) h).1, Slices.mapErr .missing (execute (statements dec) h).2)

/-! ## Members -/

section Members

variable {L : JsonLib}

/-- The value is read back. -/
def Field.Reads : (f : Field) → f.Value → Prop
  | difficulty | number | time => fun i => 0 ≤ i ∧ i < 2 ^ 256
  | round | round2 => fun i => i = 0
  | presidentId => fun s => s = []
  | _ => fun _ => True

theorem plain_digit {d : ℕ} (h : d < 16) : Plain (Hex.digit d) := by
  have checked : ∀ d : Fin 16, Plain (Hex.digit d) := by unfold Plain; decide
  exact checked ⟨d, h⟩

theorem plain_marshalBytes (b : Bytes) : ∀ c ∈ marshalBytes b, Plain c := by
  have digits : ∀ c ∈ Hex.encode b, Plain c := by
    induction b with
    | nil => exact nofun
    | cons x b ih =>
      have hx := x.toNat_lt
      rw [Hex.encode, forall_mem_cons, forall_mem_cons]
      exact ⟨plain_digit (by omega), plain_digit (Nat.mod_lt _ (by norm_num)), ih⟩
  rw [marshalBytes, forall_mem_append]
  refine ⟨?_, digits⟩
  simp [ox, Plain]

theorem unmarshalFixed_of_length {n : ℕ} {b : Bytes} (typname : String) (h : b.length = n) :
    unmarshalFixed typname n (marshalBytes b) = .ok b := by
  subst h
  exact unmarshalFixed_marshalBytes typname b

theorem decodeHash_hashBytes (h : Hash) : decodeHash (marshalBytes (hashBytes h)) = .ok h := by
  rw [decodeHash, unmarshalFixed_of_length _ (length_hashBytes h)]
  exact congrArg _ (bytesToHash_hashBytes h)

theorem decodeAddress_addressBytes (a : Address) :
    decodeAddress (marshalBytes (addressBytes a)) = .ok a := by
  rw [decodeAddress, unmarshalFixed_of_length _ (length_addressBytes a)]
  exact congrArg _ (bytesToAddress_addressBytes a)

theorem decodeBloom_bloomBytes (b : Bloom) : decodeBloom (marshalBytes (bloomBytes b)) = .ok b := by
  rw [decodeBloom, unmarshalFixed_of_length _ (length_bloomBytes b)]
  exact congrArg _ (ofNat_value_fixed 256 b)

theorem decodeNonce_nonceBytes (n : BlockNonce) :
    decodeNonce (marshalBytes (nonceBytes n)) = .ok n := by
  rw [decodeNonce, unmarshalFixed_of_length _ (length_nonceBytes n)]
  exact congrArg _ (ofNat_value_fixed 8 n)

theorem parseUint_zero : parseUint (decimal 0) = .ok 0 := by simp [parseUint, decimal]

theorem hexJson_str {α : Type} {dec : Bytes → Except Hexutil.Err α} {raw : Bytes} {a : α}
    (h : dec raw = .ok a) : hexJson dec (.str raw) = .ok a := by
  rw [hexJson, h]
  rfl

theorem hexText_str {α : Type} {dec : Bytes → Except Hexutil.Err α} {raw : Bytes} {a : α}
    (plain : ∀ c ∈ raw, Plain c) (h : dec raw = .ok a) : hexText L dec (.str raw) = .ok a := by
  rw [hexText, L.unquote_plain raw plain, h]
  rfl

theorem Field.decode_encode (f : Field) (v : f.Value) (h : f.Reads v) :
    f.decode L (f.encode L v) = .ok v := by
  cases f with
  | parentHash | uncleHash | root | txHash | receiptHash | mixDigest | dappMainHash =>
    rw [decode, encode]
    exact hexJson_str (decodeHash_hashBytes v)
  | coinbase | dappID =>
    rw [decode, encode]
    exact hexJson_str (decodeAddress_addressBytes v)
  | bloom =>
    exact hexText_str (plain_marshalBytes _) (decodeBloom_bloomBytes v)
  | difficulty | number | time =>
    exact hexJson_str ((unmarshalBig_marshalBig_iff v).1.2 h)
  | gasLimit | gasUsed =>
    exact hexJson_str (unmarshalUint64_marshalUint64 v)
  | extra =>
    exact hexJson_str (unmarshalBytes_marshalBytes v)
  | nonce =>
    exact hexText_str (plain_marshalBytes _) (decodeNonce_nonceBytes v)
  | round | round2 =>
    obtain rfl : v = 0 := h
    exact parseUint_zero
  | presidentId =>
    obtain rfl : v = [] := h
    change Except.ok (L.unquote (L.quote [])) = _
    rw [L.quote_nil, L.unquote_plain [] nofun]

theorem Field.encode_ne_null (f : Field) (v : f.Value) : f.encode L v ≠ .null := by
  cases f <;> exact nofun

theorem store_member {enc : (f : Field) → Option f.Value} {f : Field}
    (h : ∀ v, enc f = some v → f.Reads v) (dec : Dec) :
    dec.store L (member L enc f) = .ok (Function.update dec f (enc f)) := by
  unfold Dec.store member
  simp only [L.fieldOf_name]
  cases he : enc f with
  | none => exact if_pos rfl
  | some v =>
    refine (if_neg (f.encode_ne_null v)).trans ?_
    rw [elim_some, f.decode_encode v (h v he)]
    rfl

theorem foldlM_members {enc : (f : Field) → Option f.Value} {fs : List Field}
    (h : ∀ f ∈ fs, ∀ v, enc f = some v → f.Reads v)
    (dec : Dec) : (fs.map (member L enc)).foldlM (Dec.store L) dec = .ok fun f => if f ∈
      fs then enc f else dec f := by
  induction fs generalizing dec with
  | nil => simp [pure, Except.pure]
  | cons g fs ih =>
    rw [forall_mem_cons] at h
    rw [map_cons, foldlM_cons, store_member h.1]
    change (fs.map (member L enc)).foldlM (Dec.store L) _ = _
    rw [ih h.2, Except.ok.injEq]
    funext f
    by_cases hg : f = g
    · subst hg
      simp
    · simp [hg]

theorem foldlM_error {doc : Document} {m : String × Json} (hm : m ∈ doc)
    (h : ∀ dec : Dec, ∃ e, dec.store L m = .error e)
    (dec : Dec) : ∃ e, doc.foldlM (Dec.store L) dec = .error e := by
  induction doc generalizing dec with
  | nil => exact absurd hm not_mem_nil
  | cons m' doc ih =>
    rw [foldlM_cons]
    cases hs : dec.store L m' with
    | error e => exact ⟨e, rfl⟩
    | ok dec' =>
      rcases mem_cons.1 hm with rfl | hm
      · obtain ⟨e, he⟩ := h dec
        rw [he] at hs
        cases hs
      · exact ih hm dec'

end Members

/-! ## The round trip -/

/-- The integers are set and have at most 256 bits, without a sign. -/
structure Header.InRange (h : Header) : Prop where
  difficulty : ∀ i, h.difficulty = some i → 0 ≤ i ∧ i < 2 ^ 256
  number : ∀ i, h.number = some i → 0 ≤ i ∧ i < 2 ^ 256
  time : ∀ i, h.time = some i → 0 ≤ i ∧ i < 2 ^ 256

/-- Nothing else has the hash of the header. -/
def Header.NoCollision (h : Header) : Prop :=
  ∀ bs, keccak bs = keccak (Item.list h.items).encode → bs = (Item.list h.items).encode

/-- The header without the fields that `MarshalJSON` does not copy. -/
def Header.forget (h : Header) : Header := { h with round := 0, round2 := 0, presidentId := [] }

section RoundTrip

variable {L : JsonLib} {keccak : Bytes → Hash} {h target : Header}

theorem jsonUnmarshal_marshalJSON (range : h.InRange) :
    jsonUnmarshal L (h.marshalJSON L keccak) = .ok h.enc := by
  have reads : ∀ f ∈ Field.all, ∀ v, h.enc f = some v → f.Reads v := by
    intro f _ v hv
    cases f with
    | difficulty => exact range.difficulty v hv
    | number => exact range.number v hv
    | time => exact range.time v hv
    | round | round2 | presidentId => exact (some.inj hv).symm
    | _ => trivial
  rw [jsonUnmarshal, Header.marshalJSON, foldlM_append, foldlM_members reads]
  change Dec.store L _ _ >>= pure = _
  rw [bind_pure, Dec.store, L.fieldOf_hash, Except.ok.injEq]
  funext f
  exact if_pos (by cases f <;> decide)

theorem hexJson_marshalBig {i : ℤ} (bad : ¬ (0 ≤ i ∧ i < 2 ^ 256)) :
    ∃ e, hexJson unmarshalBig (.str (marshalBig i)) = .error e := by
  obtain ⟨e, he⟩ := (unmarshalBig_marshalBig_iff i).2 bad
  rw [hexJson, he]
  exact ⟨_, rfl⟩

theorem store_error {f : Field} {v : f.Value} (he : h.enc f = some v)
    (hd : ∃ e, f.decode L (f.encode L v) = .error e)
    (dec : Dec) : ∃ e, dec.store L (member L h.enc f) = .error e := by
  obtain ⟨e, hd⟩ := hd
  unfold Dec.store member
  simp only [L.fieldOf_name, he]
  refine ⟨e, (if_neg (f.encode_ne_null v)).trans ?_⟩
  rw [elim_some, hd]
  rfl

theorem jsonUnmarshal_of_not_inRange (range : ¬ h.InRange) :
    ∃ e, jsonUnmarshal L (h.marshalJSON L keccak) = .error e := by
  by_contra reads
  have stops (f : Field) (hf : f ∈ Field.all) {v : f.Value} (he : h.enc f = some v)
      (hd : ∃ e, f.decode L (f.encode L v) = .error e) : False :=
    reads (foldlM_error (mem_append_left _ (mem_map_of_mem hf)) (store_error he hd) _)
  refine range ⟨fun i hi => ?_, fun i hi => ?_, fun i hi => ?_⟩
  · by_contra bad
    exact stops .difficulty (by decide) hi (hexJson_marshalBig bad)
  · by_contra bad
    exact stops .number (by decide) hi (hexJson_marshalBig bad)
  · by_contra bad
    exact stops .time (by decide) hi (hexJson_marshalBig bad)

theorem execute_enc (set : h.Set) : execute (statements h.enc) target = (h.forget, .ok ()) := by
  obtain ⟨d, hd⟩ := ne_none_iff_exists'.1 set.difficulty
  obtain ⟨n, hn⟩ := ne_none_iff_exists'.1 set.number
  obtain ⟨t, ht⟩ := ne_none_iff_exists'.1 set.time
  simp only [statements, laterStatements, requiredField, check, assign, Header.enc, hd, hn, ht,
    elim_some, cons_append, nil_append, execute, id, Header.forget]

theorem unmarshalJSON_marshalJSON (set : h.Set) (range : h.InRange) :
    target.unmarshalJSON L (h.marshalJSON L keccak) = (h.forget, .ok ()) := by
  rw [Header.unmarshalJSON, jsonUnmarshal_marshalJSON range]
  simp only [execute_enc set]
  rfl

theorem Header.InRange.encodable (range : h.InRange) : h.Encodable := by
  have nonneg {i : Option ℤ} (hi : ∀ j, i = some j → 0 ≤ j ∧ j < 2 ^ 256) : 0 ≤ i.getD 0 := by
    cases i with
    | none => exact le_rfl
    | some j => exact (hi j rfl).1
  exact ⟨nonneg range.difficulty, nonneg range.number, nonneg range.time⟩

theorem Header.InRange.fits (range : h.InRange)
    (strings : h.extra.length + h.presidentId.length < 2 ^ 63) :
    (Item.list h.items).Fits (2 ^ 64) := by
  have small {i : Option ℤ} (hi : ∀ j, i = some j → 0 ≤ j ∧ j < 2 ^ 256) : (i.getD 0).natAbs <
      2 ^ 256 := by
    cases i with
    | none => norm_num
    | some j =>
      have := hi j rfl
      rw [getD_some]
      omega
  exact fits_items (small range.difficulty) (small range.number) (small range.time) strings

theorem Header.InRange.forget (range : h.InRange) : h.forget.InRange := ⟨range.1, range.2, range.3⟩

theorem hash_forget_iff (free : h.NoCollision keccak) (range : h.InRange)
    (strings : h.extra.length + h.presidentId.length < 2 ^ 63) :
    h.forget.hash keccak = h.hash keccak ↔ h.round = 0 ∧ h.round2 = 0 ∧ h.presidentId = [] := by
  have strings' : h.forget.extra.length + h.forget.presidentId.length < 2 ^ 63 := by
    change h.extra.length + 0 < _
    omega
  rw [Header.hash_of_encodable range.encodable (range.fits strings),
    Header.hash_of_encodable range.forget.encodable (range.forget.fits strings')]
  constructor
  · intro heq
    have items :=
      Item.list.inj (encode_inj (range.forget.fits strings') (range.fits strings) (free _ heq))
    simp only [Header.items, cons.injEq, Item.str.injEq] at items
    obtain ⟨-, -, -, -, -, -, -, -, -, -, -, -, -, -, -, hr, hr2, hp, -⟩ := items
    exact ⟨(uintItem_inj hr).symm, (uintItem_inj hr2).symm, hp.symm⟩
  · rintro ⟨hr, hr2, hp⟩
    have same : h.forget = h := Header.ext rfl rfl rfl rfl rfl rfl rfl rfl rfl rfl rfl rfl rfl rfl rfl
      hr.symm hr2.symm hp.symm rfl rfl
    rw [same]

theorem roundTrip_iff (free : h.NoCollision keccak) (set : h.Set)
    (strings : h.extra.length + h.presidentId.length < 2 ^ 63) :
    (∃ h', target.unmarshalJSON L (h.marshalJSON L keccak) = (h', .ok ()) ∧ h'.hash keccak =
      h.hash keccak) ↔ h.InRange ∧ h.round = 0 ∧ h.round2 = 0 ∧ h.presidentId = [] := by
  by_cases range : h.InRange
  · rw [unmarshalJSON_marshalJSON set range, ← hash_forget_iff free range strings]
    constructor
    · rintro ⟨h', heq, hash⟩
      obtain ⟨rfl, -⟩ := Prod.mk.inj heq
      exact ⟨range, hash⟩
    · exact fun ⟨_, hash⟩ => ⟨_, rfl, hash⟩
  · obtain ⟨e, he⟩ := @jsonUnmarshal_of_not_inRange L keccak h range
    refine iff_of_false ?_ fun h => range h.1
    rintro ⟨h', heq, -⟩
    rw [Header.unmarshalJSON, he] at heq
    cases heq

end RoundTrip

/-! ## Missing fields -/

/-- `UnmarshalJSON` does not crash, reports a field that is missing or null, and leaves the target
as it was when it returns an error. -/
structure Safe (L : JsonLib) (doc : Document) (target : Header) : Prop where
  returns : Slices.Returns (target.unmarshalJSON L doc).2
  reports : ∀ dec f, jsonUnmarshal L doc = .ok dec → dec f = none →
    ∃ e, (target.unmarshalJSON L doc).2 = .error (.err e)
  unchanged : ∀ e, (target.unmarshalJSON L doc).2 = .error (.err e) →
    (target.unmarshalJSON L doc).1 = target

section Missing

variable {L : JsonLib} {doc : Document} {dec : Dec} {target : Header} {stmts : List Statement}

theorem execute_ok_iff {h : Header} : (execute stmts h).2 = .ok () ↔ ∀ s ∈ stmts, ∃ f, s = .ok f := by
  induction stmts generalizing h with
  | nil => simp [execute]
  | cons s stmts ih =>
    cases s with
    | error e => simp [execute]
    | ok f => simp [execute, ih]

theorem execute_keeps {α : Type} (get : Header → α)
    (h : ∀ s ∈ stmts, ∀ f, s = .ok f → ∀ t, get (f t) = get t) (t : Header) :
    get (execute stmts t).1 = get t := by
  induction stmts generalizing t with
  | nil => rfl
  | cons s stmts ih =>
    rw [forall_mem_cons] at h
    cases s with
    | error e => rfl
    | ok f =>
      rw [execute, ih h.2]
      exact h.1 f rfl t

section Statements

variable {α β : Type} {p : Option α} {msg : String} {set : α → Header → Header} {get : Header → β}

theorem check_ok_iff : (∃ f, check p msg = .ok f) ↔ p ≠ none := by cases p <;> simp [check]

theorem assign_ok_iff : (∃ f, assign p set = .ok f) ↔ p ≠ none := by cases p <;> simp [assign]

theorem check_keeps (get : Header → β) : ∀ f, check p msg = .ok f → ∀ t, get (f t) = get t := by
  intro f hf t
  cases p with
  | none => cases hf
  | some v =>
    obtain rfl := Except.ok.inj hf
    rfl

theorem assign_keeps (h : ∀ v t, get (set v t) = get t) :
    ∀ f, assign p set = .ok f → ∀ t, get (f t) = get t := by
  intro f hf t
  cases p with
  | none => cases hf
  | some v =>
    obtain rfl := Except.ok.inj hf
    exact h v t

theorem required_keeps (h : ∀ v t, get (set v t) = get t) :
    ∀ s ∈ requiredField p msg set, ∀ f, s = .ok f → ∀ t, get (f t) = get t := by
  simp only [requiredField, forall_mem_cons]
  exact ⟨check_keeps get, assign_keeps h, nofun⟩

end Statements

theorem execute_statements_ok_iff :
    (execute (statements dec) target).2 = .ok () ↔ ∀ f, dec f ≠ none := by
  rw [execute_ok_iff]
  simp only [statements, laterStatements, requiredField, forall_mem_append, forall_mem_cons,
    check_ok_iff, assign_ok_iff]
  constructor
  · intro h f
    cases f <;> simp only [h, ne_eq, not_false_eq_true]
  · intro h
    simp [h]

theorem round_of_execute {p : Hash} {r : UInt64} (hp : dec .parentHash = some p)
    (hr : dec .round = some r) : (execute (statements dec) target).1.round = r := by
  have keeps : ∀ s ∈ laterStatements dec, ∀ f, s = .ok f → ∀ t : Header, (f t).round = t.round := by
    simp only [laterStatements, forall_mem_append, forall_mem_cons]
    and_intros
    all_goals first
      | exact required_keeps fun _ _ => rfl
      | exact assign_keeps fun _ _ => rfl
      | exact check_keeps Header.round
      | exact nofun
  rw [statements, hp, hr]
  simp only [check, assign, elim_some, execute, id]
  exact execute_keeps Header.round keeps _

theorem execute_of_no_parentHash (h : dec .parentHash = none) :
    execute (statements dec) target =
      (target, .error (.err "missing required field 'parentHash' for Header")) := by
  rw [statements, h]
  rfl

theorem safe_of_error {e : FieldErr} (h : jsonUnmarshal L doc = .error e) : Safe L doc target := by
  have result : target.unmarshalJSON L doc = (target, .error (.err (.json e))) := by
    rw [Header.unmarshalJSON, h]
  refine ⟨?_, fun dec f hdec => ?_, fun _ _ => ?_⟩
  · rw [result]
    exact Slices.returns_err _
  · rw [h] at hdec
    cases hdec
  · rw [result]

theorem safe_of_no_parentHash (hdec : jsonUnmarshal L doc = .ok dec) (h : dec .parentHash = none) :
    Safe L doc target := by
  have result : target.unmarshalJSON L doc =
      (target, .error (.err (.missing "missing required field 'parentHash' for Header"))) := by
    rw [Header.unmarshalJSON, hdec]
    simp only [execute_of_no_parentHash h]
    rfl
  refine ⟨?_, fun _ _ _ _ => ⟨_, congrArg Prod.snd result⟩, fun _ _ => ?_⟩
  · rw [result]
    exact Slices.returns_err _
  · rw [result]

theorem safe_of_complete (hdec : jsonUnmarshal L doc = .ok dec) (h : ∀ f, dec f ≠ none) :
    Safe L doc target := by
  have result : (target.unmarshalJSON L doc).2 = .ok () := by
    rw [Header.unmarshalJSON, hdec]
    simp only [execute_statements_ok_iff.2 h]
    rfl
  refine ⟨?_, fun dec' f hdec' hf => ?_, fun e he => ?_⟩
  · rw [result]
    exact Slices.returns_ok _
  · rw [hdec, Except.ok.injEq] at hdec'
    exact absurd (hdec' ▸ hf) (h f)
  · rw [result] at he
    cases he

theorem safe_iff : (∀ target, Safe L doc target) ↔ (∃ e, jsonUnmarshal L doc = .error e) ∨
      ∃ dec, jsonUnmarshal L doc = .ok dec ∧ (dec .parentHash = none ∨ ∀ f, dec f ≠ none) := by
  constructor
  · intro safe
    cases hdec : jsonUnmarshal L doc with
    | error e => exact .inl ⟨e, rfl⟩
    | ok dec =>
      refine .inr ⟨dec, rfl, ?_⟩
      by_contra cond
      rw [not_or] at cond
      obtain ⟨p, hp⟩ := ne_none_iff_exists'.1 cond.1
      have fails (t : Header) : (execute (statements dec) t).2 ≠ .ok () :=
        fun h => cond.2 (execute_statements_ok_iff.1 h)
      have result (t : Header) : t.unmarshalJSON L doc =
          ((execute (statements dec) t).1, Slices.mapErr .missing (execute (statements dec) t).2) := by
        rw [Header.unmarshalJSON, hdec]
      cases hr : dec .round with
      | none =>
        -- the pointer to `Round` is followed although it is nil
        have crash : execute (statements dec) Header.zero = (Header.zero, .error .panic) := by
          rw [statements, hp, hr]
          rfl
        have := (safe Header.zero).returns
        rw [result, crash] at this
        exact this rfl
      | some r =>
        -- a target with another `Round` is not left as it was
        let target : Header := { Header.zero with round := r + 1 }
        have round : (execute (statements dec) target).1.round = r := round_of_execute hp hr
        cases he : (execute (statements dec) target).2 with
        | ok _ => exact fails target he
        | error e =>
          cases e with
          | panic =>
            have := (safe target).returns
            rw [result, he] at this
            exact this rfl
          | err msg =>
            have same := (safe target).unchanged (.missing msg) (by rw [result, he]; rfl)
            rw [result] at same
            rw [same] at round
            exact absurd round (by simp [target])
  · rintro (⟨e, he⟩ | ⟨dec, hdec, h | h⟩) target
    · exact safe_of_error he
    · exact safe_of_no_parentHash hdec h
    · exact safe_of_complete hdec h

end Missing

/-- The round trip keeps the hash exactly if `Round`, `Round2` and `PresidentId` are zero and the
integers are in range; no target is harmed exactly if the values have errors, or `parentHash` is
missing, or no field is. -/
theorem header_json_iff :
    (∀ h target : Header, h.Set → h.extra.length + h.presidentId.length < 2 ^ 63 →
      h.NoCollision keccak →
      ((∃ h', target.unmarshalJSON L (h.marshalJSON L keccak) = (h', .ok ()) ∧ h'.hash keccak =
        h.hash keccak) ↔ h.InRange ∧ h.round = 0 ∧ h.round2 = 0 ∧ h.presidentId = [])) ∧
    ∀ doc : Document, (∀ target, Safe L doc target) ↔ (∃ e, jsonUnmarshal L doc = .error e) ∨
        ∃ dec, jsonUnmarshal L doc = .ok dec ∧ (dec .parentHash = none ∨ ∀ f, dec f ≠ none) :=
  ⟨fun _ _ set strings free => roundTrip_iff free set strings, fun _ => safe_iff⟩

/-- A library that changes no text. -/
def exactLib : JsonLib where
  quote := id
  unquote := id
  fieldOf key := Field.all.find? fun f => f.name = key
  quote_nil := rfl
  unquote_plain _ _ := rfl
  fieldOf_name f := by cases f <;> decide
  fieldOf_hash := by decide

/-- A header with its numbers set. -/
def plainHeader : Header := { Header.zero with difficulty := some 1, number := some 1, time := some 1 }

theorem set_plainHeader : plainHeader.Set := ⟨by decide, by decide, by decide⟩

theorem inRange_plainHeader : plainHeader.InRange := by
  constructor <;>
  · rintro i hi
    obtain rfl := some.inj hi
    norm_num

/-- One with a round. -/
def firstRound : Header := { plainHeader with round := 1 }

/-- A hash of zeros. -/
def zeroHash : Json := .str (marshalBytes (List.replicate 32 0))

/-- The round is lost, a document with nothing but `parentHash` crashes, and one without
`sha3Uncles` is refused after `Round` was written. -/
theorem header_json_fails :
    (∃ keccak, Header.zero.unmarshalJSON exactLib (firstRound.marshalJSON exactLib keccak) =
      (plainHeader, .ok ()) ∧ plainHeader.hash keccak ≠ firstRound.hash keccak) ∧
    (Header.zero.unmarshalJSON exactLib [("parentHash", zeroHash)]).2 = .error .panic ∧
    Header.zero.unmarshalJSON exactLib
      [("parentHash", zeroHash), ("round", .lit [55]), ("round2", .lit [48]),
        ("presidentId", .str []), ("dappID", .str (marshalBytes (List.replicate 20 0))),
          ("dappMainHash", zeroHash)] =
      ({ Header.zero with round := 7 },
        .error (.err (.missing "missing required field 'PresidentId' for Header"))) := by
  have set : firstRound.Set := ⟨set_plainHeader.1, set_plainHeader.2, set_plainHeader.3⟩
  have range : firstRound.InRange :=
    ⟨inRange_plainHeader.1, inRange_plainHeader.2, inRange_plainHeader.3⟩
  have free : firstRound.NoCollision (tell (Item.list firstRound.items).encode) := fun _ => eq_of_tell
  refine ⟨⟨tell (Item.list firstRound.items).encode, unmarshalJSON_marshalJSON set range,
    fun heq => ?_⟩, ?_, ?_⟩
  · exact absurd ((hash_forget_iff free range (by decide)).1 heq).1 (by decide)
  · decide +kernel
  · decide +kernel

theorem header_json_plain :
    plainHeader.Set ∧ plainHeader.NoCollision (tell (Item.list plainHeader.items).encode) ∧
    ∃ h', Header.zero.unmarshalJSON exactLib
      (plainHeader.marshalJSON exactLib (tell (Item.list plainHeader.items).encode)) =
        (h', .ok ()) ∧
      h'.hash (tell (Item.list plainHeader.items).encode) =
        plainHeader.hash (tell (Item.list plainHeader.items).encode) := by
  have free : plainHeader.NoCollision (tell (Item.list plainHeader.items).encode) := fun _ => eq_of_tell
  exact ⟨set_plainHeader, free,
    ((header_json_iff exactLib _).1 plainHeader Header.zero set_plainHeader (by decide) free).2
    ⟨inRange_plainHeader, rfl, rfl, rfl⟩⟩

end JuChain.Types
