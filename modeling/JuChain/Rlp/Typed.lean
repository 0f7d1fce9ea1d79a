import JuChain.Rlp.Interface

/-!
# Typed values

The writers and decoders that `common/rlp` makes for Go types.  A `reflect.Type` is the name that
errors print.  Every writer writes the item of its value (`Writes`), and a decoder reads exactly the
byte strings of a grammar (`Parses`).
-/

namespace JuChain.Rlp

open BigEndian RLP JuChain.Rlp.Stream List

/-! ## Writers -/

/-- A writer of one value. -/
abbrev Writer := EncBuf → Except Err EncBuf

def writeUint (i : UInt64) : Writer := fun w =>
  if i = 0 then .ok (w.write [0x80])
  else if i < 128 then .ok (w.write [i.toUInt8])
  else .ok (w.write ((0x80 + UInt8.ofNat (putint i.toNat).length) :: putint i.toNat))

def writeBigInt (i : ℤ) : Writer := fun w =>
  if i < 0 then .error .negativeBigInt
  else if i = 0 then .ok (w.write [0x80])
  else .ok (w.encodeString (minimal i.natAbs))

/-- `writeBytes`, and `writeByteArray` on the bytes of the array. -/
def writeBytes (b : Bytes) : Writer := fun w => .ok (w.encodeString b)

/-- A pointer to an array. -/
def writeArrayPtr : Option Bytes → Writer
  | none => fun w => .ok (w.write [0x80])
  | some b => writeBytes b

/-- The fields, one after the other. -/
def writeAll : List Writer → Writer
  | [], w => .ok w
  | f :: fs, w => (f w).bind (writeAll fs)

/-- The fields as a list. -/
def writeList (fs : List Writer) : Writer := fun w =>
  (writeAll fs w.list.2).map fun w' => w'.listEnd w.list.1

/-- `EncodeToBytes`.  `Encode` writes the same bytes, and none after an error. -/
def encodeWith (f : Writer) : Except Err Bytes := (f .empty).map EncBuf.toBytes

/-- It writes the item. -/
def Writes (f : Writer) (x : Item) : Prop := ∀ w, f w = .ok (writeItem x w)

/-- The writer has a negative integer to write. -/
def Fails (f : Writer) : Prop := ∀ w, f w = .error .negativeBigInt

/-- It always fails, or always writes one item. -/
def Settles (f : Writer) : Prop := Fails f ∨ ∃ x, Writes f x

section Writers

variable {w : EncBuf} {n : ℕ} {xs : List Item}

theorem write_write (w : EncBuf) (a b : Bytes) : (w.write a).write b = w.write (a ++ b) := by
  simp [EncBuf.write]

theorem encodeString_nil_eq (w : EncBuf) : w.encodeString [] = w.write [0x80] := by
  simp [EncBuf.encodeString, Single, EncBuf.encodeStringHeader, write_write, puthead]

theorem minimal_of_lt (pos : 0 < n) (h : n < 256) : minimal n = [UInt8.ofNat n] := by
  rw [minimal_of_pos pos, Nat.div_eq_of_lt h, minimal_zero, Nat.mod_eq_of_lt h, nil_append]

theorem length_minimal_of_lt (h : n < 2 ^ 64) : (minimal n).length ≤ 8 :=
  length_minimal_le.2 (by norm_num at h ⊢; exact h)

theorem single_minimal (h : Single (minimal n)) : n < 128 := by
  obtain ⟨b, hb, small⟩ := single_iff.1 h
  rw [← value_minimal n, hb, value_singleton]
  exact UInt8.lt_iff_toNat_lt.1 small

theorem single_minimal_iff (pos : 0 < n) : Single (minimal n) ↔ n < 128 := by
  refine ⟨single_minimal, fun lt => ?_⟩
  rw [minimal_of_lt pos (by omega)]
  refine single_iff.2 ⟨_, rfl, UInt8.lt_iff_toNat_lt.2 ?_⟩
  exact Nat.lt_of_le_of_lt (Nat.mod_le _ _) lt

@[simp] theorem writes_uint (i : UInt64) : Writes (writeUint i) (.str (minimal i.toNat)) := by
  intro w
  unfold writeUint
  split_ifs with zero small
  · subst zero
    exact congrArg _ (encodeString_nil_eq w).symm
  · have lt : i.toNat < 128 := UInt64.lt_iff_toNat_lt.1 small
    have pos : 0 < i.toNat := Nat.pos_of_ne_zero fun h => zero (UInt64.toNat_inj.1 h)
    rw [writeItem, EncBuf.encodeString, if_pos ((single_minimal_iff pos).2 lt),
      minimal_of_lt pos (by omega)]
    rfl
  · have large : ¬ i.toNat < 128 := fun h => small (UInt64.lt_iff_toNat_lt.2 h)
    have fits : i.toNat < 2 ^ 64 := i.toNat_lt
    have short : (minimal i.toNat).length < 56 :=
      Nat.lt_of_le_of_lt (length_minimal_of_lt fits) (by norm_num)
    rw [writeItem, EncBuf.encodeString, if_neg fun h => large (single_minimal h),
      EncBuf.encodeStringHeader, write_write, puthead, if_pos short, putint_eq (by omega) fits]
    rfl

theorem writes_bigInt {i : ℤ} (h : 0 ≤ i) : Writes (writeBigInt i) (.str (minimal i.natAbs)) := by
  intro w
  unfold writeBigInt
  rw [if_neg (not_lt.2 h)]
  split_ifs with zero
  · subst zero
    exact congrArg _ (encodeString_nil_eq w).symm
  · rfl

theorem fails_bigInt {i : ℤ} (h : i < 0) : Fails (writeBigInt i) := fun _ => if_pos h

@[simp] theorem writes_bytes (b : Bytes) : Writes (writeBytes b) (.str b) := fun _ => rfl

@[simp] theorem writes_arrayPtr (b : Option Bytes) : Writes (writeArrayPtr b) (.str (b.getD [])) := by
  intro w
  cases b with
  | none => exact congrArg _ (encodeString_nil_eq w).symm
  | some b => rfl

@[simp] theorem settles_uint (i : UInt64) : Settles (writeUint i) := .inr ⟨_, writes_uint i⟩

@[simp] theorem settles_bytes (b : Bytes) : Settles (writeBytes b) := .inr ⟨_, writes_bytes b⟩

@[simp] theorem settles_arrayPtr (b : Option Bytes) : Settles (writeArrayPtr b) :=
  .inr ⟨_, writes_arrayPtr b⟩

@[simp] theorem settles_bigInt (i : ℤ) : Settles (writeBigInt i) := by
  rcases lt_or_ge i 0 with neg | nonneg
  · exact .inl (fails_bigInt neg)
  · exact .inr ⟨_, writes_bigInt nonneg⟩

variable {fs : List Writer}

theorem writeAll_of_writes (h : List.Forall₂ Writes fs xs) (w : EncBuf) :
    writeAll fs w = .ok (writeItems xs w) := by
  induction h generalizing w with
  | nil => rfl
  | cons hf _ ih =>
    rw [writeAll, hf w]
    exact ih _

theorem writes_list (h : List.Forall₂ Writes fs xs) : Writes (writeList fs) (.list xs) := by
  intro w
  rw [writeList, writeAll_of_writes h]
  rfl

theorem fails_list (each : ∀ f ∈ fs, Settles f) (h : ∃ f ∈ fs, Fails f) : Fails (writeList fs) := by
  suffices hall : ∀ w, writeAll fs w = .error .negativeBigInt by
    intro w
    rw [writeList, hall]
    rfl
  induction fs with
  | nil =>
    obtain ⟨f, hf, -⟩ := h
    cases hf
  | cons f fs ih =>
    intro w
    rcases each f mem_cons_self with hf | ⟨x, hf⟩
    · rw [writeAll, hf w]
      rfl
    · rw [writeAll, hf w]
      refine ih (fun g hg => each g (mem_cons_of_mem f hg)) ?_ _
      obtain ⟨g, hg, fail⟩ := h
      rcases mem_cons.1 hg with rfl | hg
      · have := (hf w).symm.trans (fail w)
        cases this
      · exact ⟨g, hg, fail⟩

/-- The output of a writer is the standard encoding of its item. -/
theorem encodeWith_of_writes {f : Writer} {x : Item} (h : Writes f x) (fits : x.Fits (2 ^ 64)) :
    encodeWith f = .ok x.encode := by
  rw [encodeWith, h]
  exact congrArg _ (encodeToBytes_eq le_rfl fits)

theorem encodeWith_of_fails {f : Writer} (h : Fails f) : encodeWith f = .error .negativeBigInt := by
  rw [encodeWith, h]
  rfl

end Writers

/-! ## Decoders -/

/-- Another error. -/
def Res.mapError {α : Type} (f : Err → Err) : Res α → Res α
  | .ok a s => .ok a s
  | .error e s => .error (f e) s

@[simp] theorem Res.mapError_eq_ok {α : Type} {f : Err → Err} {r : Res α} {a : α} {s : Stream} :
    r.mapError f = .ok a s ↔ r = .ok a s := by
  rcases r with ⟨b, t⟩ | ⟨e, t⟩ <;> simp [mapError]

/-- The content of an integer of `size` bytes, with its own errors about the first byte. -/
def uintContent (size : ℕ) (s : Stream) : Res ℕ :=
  match s.readUint size with
  | .error .canonSize s => .error .canonInt s
  | .error e s => .error e s
  | .ok v s => if 0 < size ∧ v < 128 then .error .canonSize s else .ok v s

/-- `Stream.uint`. -/
def uint (maxbits : ℕ) (s : Stream) : Res ℕ :=
  s.kindOf.andThen fun (kind, size) s =>
    match kind with
    | .byte => if s.byteval = 0 then .error .canonInt s else .ok s.byteval.toNat { s with kind := none }
    | .string => if maxbits / 8 < size then .error .uintOverflow s else uintContent size s
    | .list => .error .expectedString s

def decodeUint (s : Stream) : Res UInt64 :=
  ((uint 64 s).mapError (wrapStreamError "uint64")).andThen fun v s => .ok (UInt64.ofNat v) s

def decodeBigInt (s : Stream) : Res ℤ :=
  (s.bytes.mapError (wrapStreamError "*big.Int")).andThen fun b s =>
    if b.head? = some 0 then .error (wrapStreamError "*big.Int" .canonInt) s else .ok (value b) s

def decodeByteSlice (s : Stream) : Res Bytes := s.bytes.mapError (wrapStreamError "[]uint8")

def decodeByteArray (typ : String) (vlen : ℕ) (s : Stream) : Res Bytes :=
  s.kindOf.andThen fun (kind, size) s =>
    match kind with
    | .byte =>
      if vlen = 0 then .error (.decode "input string too long" typ []) s
      else if 1 < vlen then .error (.decode "input string too short" typ []) s
      else
        -- the error of `Uint` is dropped
        match uint 64 s with
        | .ok v s => .ok [UInt8.ofNat v] s
        | .error _ s => .ok [0] s
    | .string =>
      if vlen < size then .error (.decode "input string too long" typ []) s
      else if size < vlen then .error (.decode "input string too short" typ []) s
      else (s.readFull vlen).andThen fun b s =>
        if Single b then .error (wrapStreamError typ .canonSize) s else .ok b s
    | .list => .error (wrapStreamError typ .expectedString) s

section Structs

variable {α β : Type}

/-- `makeOptionalPtrDecoder`: an empty string and an empty list are nil. -/
def decodeOptionalPtr (elem : Stream → Res α) (s : Stream) : Res (Option α) :=
  match s.kindOf with
  | .error e s => .error e { s with kind := none }
  | .ok (kind, size) s =>
    if size = 0 ∧ kind ≠ .byte then .ok none { s with kind := none }
    else (elem s).andThen fun a s => .ok (some a) s

/-- One field of a struct of type `typ`. -/
def decodeField (typ name : String) (dec : Stream → Res α) (s : Stream) : Res α :=
  match dec s with
  | .error .eol s => .error (.decode "too few elements" typ []) s
  | .error e s => .error (addErrorContext ("." ++ name) e) s
  | .ok a s => .ok a s

/-- Two values, one after the other. -/
def decodePair (f : Stream → Res α) (g : Stream → Res β) (s : Stream) : Res (α × β) :=
  (f s).andThen fun a s => (g s).andThen fun b s => .ok (a, b) s

/-- `makeStructDecoder`, with the loop over the fields as `fields`. -/
def decodeStruct (typ : String) (fields : Stream → Res α) (s : Stream) : Res α :=
  (s.list.mapError (wrapStreamError typ)).andThen fun _ s =>
    (fields s).andThen fun a s =>
      (s.listEnd.mapError (wrapStreamError typ)).andThen fun _ s => .ok a s

/-- `Stream.Decode` names its target in an error that has a path. -/
def addTarget (typ : String) : Err → Err
  | .decode msg t (c :: ctx) => .decode msg t (c :: ctx ++ ["(" ++ typ ++ ")"])
  | e => e

/-- `DecodeBytes` with the decoder of the target type. -/
def decodeBytesWith (dec : Stream → Res α) (b : Bytes) : Except Err α :=
  match dec (Stream.new b b.length) with
  | .error e _ => .error e
  | .ok a s => if 0 < s.input.length then .error .moreThanOneValue else .ok a

end Structs

/-! ## Grammars -/

section Grammars

variable {α β : Type} {s s' : Stream}

/-- A decoder reads exactly the byte strings that `G` gives for its value. -/
structure Parses (G : α → Bytes → Prop) (dec : Stream → Res α) : Prop where
  sound : ∀ {s a s'}, s.kind = none → dec s = .ok a s' → ∃ bs, G a bs ∧ Reads s bs s'
  complete : ∀ {s a bs}, s.kind = none → G a bs → s.Ahead bs → ∃ s', dec s = .ok a s' ∧ Reads s bs s'

/-- The encoding of the string that stands for a value. -/
def StringOf (rep : α → Bytes) (P : α → Prop) (a : α) (bs : Bytes) : Prop :=
  P a ∧ (rep a).length < 2 ^ 64 ∧ bs = encodeString (rep a)

variable {dec : Stream → Res α}

theorem parses_of_bytes {rep : α → Bytes} {P : α → Prop}
    (hsound : ∀ {s a s'}, s.kind = none → dec s = .ok a s' → P a ∧ s'.kind = none ∧
      ∃ t, s.bytes = .ok (rep a) t ∧ t.toCursor = s'.toCursor)
    (hcomplete : ∀ {s a t}, s.kind = none → P a → s.bytes = .ok (rep a) t → ∃ s', dec s = .ok a s') :
    Parses (StringOf rep P) dec := by
  have sound : ∀ {s a s'}, s.kind = none → dec s = .ok a s' →
      StringOf rep P a (encodeString (rep a)) ∧ Reads s (encodeString (rep a)) s' := by
    intro s a s' hk h
    obtain ⟨hP, hk', t, hb, hc⟩ := hsound hk h
    obtain ⟨fits, hread⟩ := bytes_sound hk hb
    exact ⟨⟨hP, fits, rfl⟩, hread.front, hread.room, hc ▸ hread.cursor, hk'⟩
  constructor
  · intro s a s' hk h
    exact ⟨_, sound hk h⟩
  · rintro s a bs hk ⟨hP, fits, rfl⟩ ahead
    obtain ⟨t, hb, -⟩ := bytes_complete hk fits ahead
    obtain ⟨s', h⟩ := hcomplete hk hP hb
    exact ⟨s', h, (sound hk h).2⟩

variable {b : Bytes}

theorem bytes_kind (hk : s.kind = none) (h : s.bytes = .ok b s') : s'.kind = none :=
  (bytes_sound hk h).2.kind

theorem parses_byteSlice : Parses (StringOf id fun _ => True) decodeByteSlice := by
  apply parses_of_bytes
  · intro s b s' hk h
    have hb := Res.mapError_eq_ok.1 h
    exact ⟨trivial, bytes_kind hk hb, s', hb, rfl⟩
  · intro s b t hk _ h
    exact ⟨t, Res.mapError_eq_ok.2 h⟩

theorem parses_bigInt : Parses (StringOf (fun i => minimal i.natAbs) fun i => 0 ≤ i) decodeBigInt := by
  apply parses_of_bytes
  · intro s i s' hk h
    obtain ⟨b, t, hb, h⟩ := Res.andThen_eq_ok.1 h
    rw [Res.mapError_eq_ok] at hb
    split_ifs at h with zero
    cases h
    refine ⟨Int.natCast_nonneg _, bytes_kind hk hb, s', ?_, rfl⟩
    rw [Int.natAbs_natCast, minimal_value zero]
    exact hb
  · intro s i t hk hi h
    refine ⟨t, Res.andThen_eq_ok.2 ⟨_, t, Res.mapError_eq_ok.2 h, ?_⟩⟩
    rw [if_neg (head_minimal _), value_minimal, Int.natAbs_of_nonneg hi]

variable {n : ℕ}

theorem readString_eq_ok {e : Err} :
    ((s.readFull n).andThen fun b s => if Single b then .error e s else .ok b s) = .ok b s' ↔
      s.readFull n = .ok b s' ∧ ¬ Single b := by
  rw [Res.andThen_eq_ok]
  constructor
  · rintro ⟨c, t, hf, h⟩
    split_ifs at h with single
    cases h
    exact ⟨hf, single⟩
  · rintro ⟨hf, single⟩
    exact ⟨b, s', hf, if_neg single⟩

theorem length_of_readFull (h : s.readFull n = .ok b s') : b.length = n := by
  obtain ⟨room, rfl, -⟩ := readFull_eq_ok.1 h
  exact length_take_of_le room.1

theorem decodeByteArray_eq_ok {typ : String} (hn : 1 < n) :
    decodeByteArray typ n s = .ok b s' ↔ s.bytes = .ok b s' ∧ b.length = n := by
  unfold decodeByteArray Stream.bytes
  rw [Res.andThen_eq_ok, Res.andThen_eq_ok]
  constructor
  · rintro ⟨⟨k, size⟩, t, ht, h⟩
    cases k with
    | byte =>
      rw [if_neg (by omega), if_pos hn] at h
      cases h
    | string =>
      dsimp only at h
      split_ifs at h with long short
      obtain rfl : size = n := by omega
      have hf := readString_eq_ok.1 h
      exact ⟨⟨_, t, ht, readString_eq_ok.2 hf⟩, length_of_readFull hf.1⟩
    | list => cases h
  · rintro ⟨⟨⟨k, size⟩, t, ht, h⟩, hlen⟩
    refine ⟨_, t, ht, ?_⟩
    cases k with
    | byte =>
      cases h
      rw [length_singleton] at hlen
      omega
    | string =>
      have hf := readString_eq_ok.1 h
      obtain rfl : size = n := (length_of_readFull hf.1).symm.trans hlen
      dsimp only
      rw [if_neg (lt_irrefl _), if_neg (lt_irrefl _)]
      exact readString_eq_ok.2 hf
    | list => cases h

theorem parses_byteArray (typ : String) (hn : 1 < n) :
    Parses (StringOf id fun b => b.length = n) (decodeByteArray typ n) := by
  apply parses_of_bytes
  · intro s b s' hk h
    obtain ⟨hb, hlen⟩ := (decodeByteArray_eq_ok hn).1 h
    exact ⟨hlen, bytes_kind hk hb, s', hb, rfl⟩
  · intro s b t hk hlen h
    exact ⟨t, (decodeByteArray_eq_ok hn).2 ⟨h, hlen⟩⟩

theorem bytes_of_uint {m v : ℕ} (hm : 8 ≤ m) (hk : s.kind = none) (h : uint m s = .ok v s') :
    v < 256 ^ (m / 8) ∧ s'.kind = none ∧ ∃ t, s.bytes = .ok (minimal v) t ∧
      t.toCursor = s'.toCursor := by
  obtain ⟨⟨k, size⟩, t, ht, h⟩ := Res.andThen_eq_ok.1 h
  obtain ⟨hd, bv, hh, front, room, -, rfl⟩ := (kindOf_eq_ok hk).1 ht
  have wide : 256 ≤ 256 ^ (m / 8) := Nat.le_self_pow (by omega) 256
  cases hh with
  | byte small =>
    have zero : bv ≠ 0 := by
      rintro rfl
      cases h
    replace h := (if_neg zero).symm.trans h
    cases h
    have pos : 0 < bv.toNat := Nat.pos_of_ne_zero fun h0 => zero (UInt8.toNat_inj.1 h0)
    have lt : bv.toNat < 256 := bv.toNat_lt
    have rep : minimal bv.toNat = [bv] := by rw [minimal_of_lt pos lt, UInt8.ofNat_toNat]
    have hb : s.bytes = .ok [bv] { s.headed [bv] .byte 0 bv with kind := none } :=
      Res.andThen_eq_ok.2 ⟨_, _, ht, rfl⟩
    exact ⟨Nat.lt_of_lt_of_le lt wide, rfl, _, hb.trans (congrArg (EStateM.Result.ok · _) rep.symm),
      rfl⟩
  | string fits =>
    dsimp only at h
    split_ifs at h with long
    unfold uintContent at h
    split at h
    · cases h
    · cases h
    rename_i v' t hr
    split_ifs at h with short
    cases h
    rcases Nat.eq_zero_or_pos size with rfl | pos
    · cases hr
      have hb : s.bytes = .ok [] ((s.headed (header 0x80 0xB7 0) .string 0 0).moved 0) :=
        Res.andThen_eq_ok.2 ⟨_, _, ht, readString_eq_ok.2
          ⟨readFull_eq_ok.2 ⟨room_zero _, take_zero.symm, rfl⟩, by decide⟩⟩
      exact ⟨by positivity, rfl, _, hb, Cursor.advance_zero _⟩
    · obtain ⟨room', head, rfl, rfl⟩ := (readUint_eq_ok pos).1 hr
      have large : ¬ value ((s.headed (header 0x80 0xB7 size) .string size 0).input.take size) < 128 :=
        fun h => short ⟨pos, h⟩
      -- one byte is at least 128, and of several the first is not zero
      have nonzero : ((s.headed (header 0x80 0xB7 size) .string size 0).input.take size).head? ≠
          some 0 := by
        rw [head_take pos]
        rcases head with rfl | head
        · intro zero
          rw [value_take_one zero] at large
          exact large (by decide)
        · exact head
      have rep := minimal_value nonzero
      have bound := value_lt ((s.headed (header 0x80 0xB7 size) .string size 0).input.take size)
      rw [length_take_of_le room'.1] at bound
      have hb : s.bytes = .ok _ ((s.headed (header 0x80 0xB7 size) .string size 0).moved size) :=
        Res.andThen_eq_ok.2 ⟨_, _, ht, readString_eq_ok.2
          ⟨readFull_eq_ok.2 ⟨room', rep, rfl⟩, fun single => large (single_minimal single)⟩⟩
      exact ⟨Nat.lt_of_lt_of_le bound (Nat.pow_le_pow_right (by norm_num) (by omega)), rfl, _, hb, rfl⟩
  | list => cases h

theorem uint_of_bytes {m v : ℕ} {t : Stream} (hv : v < 256 ^ (m / 8))
    (h : s.bytes = .ok (minimal v) t) : ∃ s', uint m s = .ok v s' := by
  obtain ⟨⟨k, size⟩, t, ht, h⟩ := Res.andThen_eq_ok.1 h
  suffices hu : ∃ s', _ from hu.imp fun s' hu => Res.andThen_eq_ok.2 ⟨_, t, ht, hu⟩
  cases k with
  | byte =>
    simp only [EStateM.Result.ok.injEq] at h
    have nonzero : t.byteval ≠ 0 := by
      intro zero
      apply head_minimal v
      rw [← h.1, zero]
      rfl
    have hval : t.byteval.toNat = v := by rw [← value_minimal v, ← h.1, value_singleton]
    exact ⟨_, (if_neg nonzero).trans (by rw [hval])⟩
  | string =>
    obtain ⟨hf, single⟩ := readString_eq_ok.1 h
    have hsize : (minimal v).length = size := length_of_readFull hf
    have short : ¬ m / 8 < size := by
      rw [← hsize, not_lt]
      exact length_minimal_le.2 hv
    dsimp only
    rw [if_neg short]
    unfold uintContent
    rcases Nat.eq_zero_or_pos v with rfl | pos
    · rw [minimal_zero, length_nil] at hsize
      subst hsize
      exact ⟨_, rfl⟩
    · obtain ⟨room, htake, rfl⟩ := readFull_eq_ok.1 hf
      have pos' : 0 < size := hsize ▸ length_pos_iff.2 (minimal_ne_nil pos)
      have head : t.input.head? ≠ some 0 := by
        rw [← head_take pos', ← htake]
        exact head_minimal v
      have hr : t.readUint size = .ok v (t.moved size) := by
        refine (readUint_eq_ok pos').2 ⟨room, .inr head, ?_, rfl⟩
        rw [← htake, value_minimal]
      have large : ¬ v < 128 := fun lt => single (single_minimal_iff pos |>.2 lt)
      rw [hr]
      exact ⟨_, if_neg fun h => large h.2⟩
  | list => cases h

theorem parses_uint :
    Parses (StringOf (fun i : UInt64 => minimal i.toNat) fun _ => True) decodeUint := by
  apply parses_of_bytes
  · intro s i s' hk h
    obtain ⟨v, t, hu, h⟩ := Res.andThen_eq_ok.1 h
    cases h
    obtain ⟨hv, hk', u, hb, hc⟩ := bytes_of_uint (by norm_num) hk (Res.mapError_eq_ok.1 hu)
    refine ⟨trivial, hk', u, ?_, hc⟩
    rw [UInt64.toNat_ofNat', Nat.mod_eq_of_lt (by norm_num at hv ⊢; exact hv)]
    exact hb
  · intro s i t hk _ hb
    have hv : i.toNat < 256 ^ (64 / 8) := by
      have := i.toNat_lt
      exact this
    obtain ⟨s', hu⟩ := uint_of_bytes hv hb
    refine ⟨s', Res.andThen_eq_ok.2 ⟨_, s', Res.mapError_eq_ok.2 hu, ?_⟩⟩
    rw [UInt64.ofNat_toNat]

/-- A pointer to a byte array with the tag `nil`: nil is the empty string or the empty list. -/
def OptionalArray (n : ℕ) : Option Bytes → Bytes → Prop
  | none, bs => bs = [0x80] ∨ bs = [0xC0]
  | some b, bs => StringOf id (fun b => b.length = n) b bs

theorem header_zero (short long : UInt8) : header short long 0 = [short] := by
  rw [header_short (by norm_num)]
  simp

theorem reads_nil {k : Kind} {bv : UInt8} {hd : Bytes} (front : hd <+: s.input)
    (room : s.Room hd.length) :
    Reads s hd { s.headed hd k 0 bv with kind := none } := ⟨front, room, rfl, rfl⟩

theorem parses_optionalArray (typ : String) (hn : 1 < n) :
    Parses (OptionalArray n) (decodeOptionalPtr (decodeByteArray typ n)) := by
  -- behind the header the array is decoded as before it
  have same : ∀ {s t : Stream} {r : Kind × ℕ}, s.kindOf = .ok r t →
      decodeByteArray typ n t = decodeByteArray typ n s := by
    intro s t r ht
    unfold decodeByteArray
    rw [kindOf_kindOf ht, ht]
  constructor
  · intro s o s' hk h
    unfold decodeOptionalPtr at h
    split at h
    · cases h
    rename_i k size t ht
    obtain ⟨hd, bv, hh, front, room, -, rfl⟩ := (kindOf_eq_ok hk).1 ht
    split_ifs at h with empty
    · obtain ⟨rfl, notByte⟩ := empty
      cases h
      refine ⟨hd, ?_, reads_nil front room⟩
      cases hh with
      | byte => exact absurd rfl notByte
      | string => exact .inl (header_zero _ _)
      | list => exact .inr (header_zero _ _)
    · obtain ⟨b, u, hb, h⟩ := Res.andThen_eq_ok.1 h
      cases h
      rw [same ht] at hb
      exact (parses_byteArray typ hn).sound hk hb
  · intro s o bs hk hG ahead
    unfold decodeOptionalPtr
    cases o with
    | none =>
      -- both empty values are read as a header of size zero
      have found : ∃ k, k ≠ .byte ∧ s.kindOf = .ok (k, 0) (s.headed bs k 0 0) := by
        have holds : (s.moved bs.length).Holds 0 := Holds.of_room (room_zero _)
        rcases hG with rfl | rfl
        · refine ⟨.string, nofun, (kindOf_eq_ok hk).2 ⟨_, 0, ?_, ahead.1, ahead.2, holds, rfl⟩⟩
          exact .string (by norm_num)
        · refine ⟨.list, nofun, (kindOf_eq_ok hk).2 ⟨_, 0, ?_, ahead.1, ahead.2, holds, rfl⟩⟩
          exact .list (by norm_num)
      obtain ⟨k, notByte, ht⟩ := found
      rw [ht]
      exact ⟨_, if_pos ⟨rfl, notByte⟩, reads_nil ahead.1 ahead.2⟩
    | some b =>
      obtain ⟨s', hb, hread⟩ := (parses_byteArray typ hn).complete hk hG ahead
      refine ⟨s', ?_, hread⟩
      obtain ⟨⟨k, size⟩, t, ht, hcont⟩ := Res.andThen_eq_ok.1 hb
      have full : ¬ (size = 0 ∧ k ≠ .byte) := by
        rintro ⟨rfl, notByte⟩
        cases k with
        | byte => exact notByte rfl
        | string =>
          dsimp only at hcont
          rw [if_neg (by omega), if_pos (by omega)] at hcont
          cases hcont
        | list => cases hcont
      rw [ht]
      dsimp only
      rw [if_neg full, same ht, hb]
      rfl

variable {G : α → Bytes → Prop}

theorem parses_field (typ name : String) (h : Parses G dec) : Parses G (decodeField typ name dec) := by
  have same : ∀ {s s' : Stream} {a : α}, decodeField typ name dec s = .ok a s' ↔ dec s = .ok a s' := by
    intro s s' a
    unfold decodeField
    split
    · rename_i hd
      simp [hd]
    · rename_i hd
      simp [hd]
    · rename_i hd
      rw [hd]
  constructor
  · intro s a s' hk hd
    exact h.sound hk (same.1 hd)
  · intro s a bs hk hG ahead
    obtain ⟨s', hd, hread⟩ := h.complete hk hG ahead
    exact ⟨s', same.2 hd, hread⟩

/-- The bytes of two values. -/
def Followed (G : α → Bytes → Prop) (H : β → Bytes → Prop) (p : α × β) (bs : Bytes) : Prop :=
  ∃ cs ds, G p.1 cs ∧ H p.2 ds ∧ bs = cs ++ ds

theorem parses_pair {H : β → Bytes → Prop} {f : Stream → Res α} {g : Stream → Res β} (hf : Parses G f)
    (hg : Parses H g) : Parses (Followed G H) (decodePair f g) := by
  constructor
  · intro s p s' hk h
    obtain ⟨a, t, ha, h⟩ := Res.andThen_eq_ok.1 h
    obtain ⟨b, u, hb, h⟩ := Res.andThen_eq_ok.1 h
    cases h
    obtain ⟨cs, hG, hread⟩ := hf.sound hk ha
    obtain ⟨ds, hH, hread'⟩ := hg.sound hread.kind hb
    exact ⟨_, ⟨cs, ds, hG, hH, rfl⟩, hread.trans hread'⟩
  · rintro s ⟨a, b⟩ _ hk ⟨cs, ds, hG, hH, rfl⟩ ahead
    obtain ⟨first, second⟩ := ahead_append.1 ahead
    obtain ⟨t, ha, hread⟩ := hf.complete hk hG first
    have hmoved : t.toCursor = (s.moved cs.length).toCursor := hread.cursor
    obtain ⟨u, hb, hread'⟩ := hg.complete hread.kind hH ((Ahead.congr hmoved).2 second)
    refine ⟨u, ?_, hread.trans hread'⟩
    exact Res.andThen_eq_ok.2 ⟨a, t, ha, Res.andThen_eq_ok.2 ⟨b, u, hb, rfl⟩⟩

/-- The bytes of a list. -/
def ListOf (G : α → Bytes → Prop) (a : α) (bs : Bytes) : Prop :=
  ∃ cs, G a cs ∧ cs.length < 2 ^ 64 ∧ bs = encodeList cs

theorem parses_struct (typ : String) {fields : Stream → Res α} (h : Parses G fields) :
    Parses (ListOf G) (decodeStruct typ fields) := by
  have sound : ∀ {s a s'}, s.kind = none → decodeStruct typ fields s = .ok a s' →
      ∃ bs, ListOf G a bs ∧ Reads s bs s' := by
    intro s a s' hk hd
    obtain ⟨size, t, hl, hd⟩ := Res.andThen_eq_ok.1 hd
    obtain ⟨a', u, ha, hd⟩ := Res.andThen_eq_ok.1 hd
    obtain ⟨⟨⟩, v, he, hd⟩ := Res.andThen_eq_ok.1 hd
    cases hd
    rw [Res.mapError_eq_ok] at hl he
    have hkt : t.kind = none := by
      obtain ⟨-, -, -, rfl⟩ := (list_eq_ok hk).1 hl
      rfl
    obtain ⟨cs, hG, hread⟩ := h.sound hkt ha
    obtain ⟨fits, hlist⟩ := reads_list hk hl hread he
    exact ⟨_, ⟨cs, hG, fits, rfl⟩, hlist⟩
  refine ⟨sound, ?_⟩
  rintro s a _ hk ⟨cs, hG, fits, rfl⟩ ahead
  obtain ⟨hl, inside⟩ := list_complete hk fits ahead
  obtain ⟨u, ha, hread⟩ := h.complete rfl hG inside
  have he := (listEnd_eq_ok hread).2 ⟨rfl, rfl⟩
  have hd : decodeStruct typ fields s = .ok a _ :=
    Res.andThen_eq_ok.2 ⟨_, _, Res.mapError_eq_ok.2 hl, Res.andThen_eq_ok.2 ⟨a, u, ha,
      Res.andThen_eq_ok.2 ⟨(), _, Res.mapError_eq_ok.2 he, rfl⟩⟩⟩
  exact ⟨_, hd, (reads_list hk hl hread he).2⟩

theorem decodeBytesWith_eq_ok (h : Parses G dec) {a : α} : decodeBytesWith dec b = .ok a ↔ G a b := by
  unfold decodeBytesWith
  constructor
  · intro hd
    split at hd
    · cases hd
    rename_i a' s hs
    split_ifs at hd with more
    cases hd
    obtain ⟨bs, hG, hread⟩ := h.sound rfl hs
    have whole : b = bs := not_not.1 (mt (left_iff hread).2 more)
    exact whole ▸ hG
  · intro hG
    obtain ⟨s, hs, hread⟩ := h.complete rfl hG (ahead_new b)
    rw [hs]
    exact if_neg (mt (left_iff hread).1 (not_not.2 rfl))

end Grammars

end JuChain.Rlp
