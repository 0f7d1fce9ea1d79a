import JuChain.Rlp.Raw

/-!
# The stream decoder

`common/rlp/decode.go`: a `Stream` reads values from a byte reader.  For every list it is in, it
keeps how much of the list was read; `Kind` reads the header of the next value once and remembers
it.  An operation that fails keeps what it changed before it failed.

`Room` says when a read can succeed, and `advance` where the stream is afterwards.
-/

namespace JuChain.Rlp

open BigEndian RLP List Option

structure ListPos where
  pos : ℕ
  size : ℕ
  deriving DecidableEq

/-- Where a stream stands: the bytes left, the input limit, and the lists it is in, the innermost
first. -/
structure Cursor where
  input : Bytes
  remaining : ℕ
  limited : Bool
  stack : List ListPos
  deriving DecidableEq

/-- `Stream`.  `kind` is `none` for the value -1 that makes `Kind` read a header. -/
structure Stream extends Cursor where
  kind : Option Kind
  size : ℕ
  byteval : UInt8
  kinderr : Option Err
  deriving DecidableEq

/-- A result and the stream after it. -/
abbrev Res (α : Type) := EStateM.Result Err Stream α

namespace Res

variable {α β : Type} {e : Err} {s : Stream} {f : α → Stream → Res β}

/-- Go on after a success. -/
def andThen (r : Res α) (f : α → Stream → Res β) : Res β :=
  match r with
  | .ok a s => f a s
  | .error e s => .error e s

@[simp] theorem andThen_ok (a : α) (s : Stream) (f : α → Stream → Res β) :
    andThen (.ok a s) f = f a s := rfl

@[simp] theorem andThen_error (e : Err) (s : Stream) (f : α → Stream → Res β) :
    andThen (.error e s) f = .error e s := rfl

theorem andThen_eq_ok {r : Res α} {b : β} :
    andThen r f = .ok b s ↔ ∃ a t, r = .ok a t ∧ f a t = .ok b s := by
  rcases r with ⟨a, t⟩ | ⟨e, t⟩ <;> simp

theorem andThen_eq_error {r : Res α} :
    andThen r f = .error e s ↔ r = .error e s ∨ ∃ a t, r = .ok a t ∧ f a t = .error e s := by
  rcases r with ⟨a, t⟩ | ⟨e, t⟩ <;> simp

theorem andThen_ok_eq_error {r : Res α} {g : α → β} :
    (andThen r fun a s => .ok (g a) s) = .error e s ↔ r = .error e s := by
  rcases r with ⟨a, t⟩ | ⟨e, t⟩ <;> simp

end Res

namespace Stream

variable (s : Stream)

/-- `NewStream` on a `bytes.Reader`: a limit of zero is replaced by the length of the data. -/
def new (b : Bytes) (inputLimit : ℕ) : Stream where
  input := b
  remaining := if 0 < inputLimit then inputLimit else b.length
  limited := true
  stack := []
  kind := none
  size := 0
  byteval := 0
  kinderr := none

/-- The limit of the input is lowered. -/
def takeInput (n : ℕ) (s : Stream) : Res Unit :=
  if s.limited then
    if s.remaining < n then .error .valueTooLarge s
    else .ok () { s with remaining := s.remaining - n }
  else .ok () s

/-- `Stream.willRead`. -/
def willRead (n : ℕ) (s : Stream) : Res Unit :=
  match s.stack with
  | [] => takeInput n { s with kind := none }
  | tos :: rest =>
    if tos.size - tos.pos < n then .error .elemTooLarge { s with kind := none }
    else takeInput n { s with kind := none, stack := ⟨tos.pos + n, tos.size⟩ :: rest }

/-- `Stream.readFull`. -/
def readFull (n : ℕ) (s : Stream) : Res Bytes :=
  (willRead n s).andThen fun _ s =>
    if s.input.length < n then .error .unexpectedEOF { s with input := [] }
    else .ok (s.input.take n) { s with input := s.input.drop n }

/-- `Stream.readByte`. -/
def readByte : Res UInt8 :=
  (willRead 1 s).andThen fun _ s =>
    match s.input with
    | [] => .error .unexpectedEOF s
    | b :: bs => .ok b { s with input := bs }

/-- `readUint`: a big-endian number of `size` bytes. -/
def readUint (size : ℕ) (s : Stream) : Res ℕ :=
  if size = 0 then .ok 0 { s with kind := none }
  else if size = 1 then (readByte s).andThen fun b s => .ok b.toNat s
  else (readFull size s).andThen fun b s =>
    if b.head? = some 0 then .error .canonSize s else .ok (value b) s

/-- A header whose length follows in `n` bytes. -/
def readLong (k : Kind) (n : ℕ) (s : Stream) : (Kind × ℕ × Option Err) × Stream :=
  match readUint n s with
  | .error e s => ((k, 0, some e), s)
  | .ok size s => if size < 56 then ((k, size, some .canonSize), s) else ((k, size, none), s)

/-- `readKind`: kind, size and error. -/
def readKind : (Kind × ℕ × Option Err) × Stream :=
  match readByte s with
  | .error e s =>
    -- at the top level the two errors of an empty input become `io.EOF`
    if s.stack = [] ∧ (e = .unexpectedEOF ∨ e = .valueTooLarge) then ((.byte, 0, some .eof), s)
    else ((.byte, 0, some e), s)
  | .ok b s =>
    if b < 0x80 then ((.byte, 0, none), { s with byteval := b })
    else if b < 0xB8 then ((.string, (b - 0x80).toNat, none), { s with byteval := 0 })
    else if b < 0xC0 then readLong .string (b - 0xB7).toNat { s with byteval := 0 }
    else if b < 0xF8 then ((.list, (b - 0xC0).toNat, none), { s with byteval := 0 })
    else readLong .list (b - 0xF7).toNat { s with byteval := 0 }

/-- The value is larger than what encloses it. -/
def tooLarge (size : ℕ) (s : Stream) : Option Err :=
  match s.stack with
  | [] => if s.limited ∧ s.remaining < size then some .valueTooLarge else none
  | tos :: _ => if tos.size - tos.pos < size then some .elemTooLarge else none

/-- The innermost list is at its end. -/
def AtEnd : Prop := ∃ tos ∈ s.stack.head?, tos.pos = tos.size

instance decidableAtEnd (s : Stream) : Decidable s.AtEnd := by
  unfold AtEnd
  infer_instance

/-- The part of `Kind` that reads. -/
def readHeader : Res (Kind × ℕ) :=
  if s.AtEnd then .error .eol { s with kinderr := none }
  else
    match readKind { s with kinderr := none } with
    | ((k, size, some e), s) => .error e { s with kind := some k, size := size, kinderr := some e }
    | ((k, size, none), s) =>
      match tooLarge size s with
      | some e => .error e { s with kind := some k, size := size, kinderr := some e }
      | none => .ok (k, size) { s with kind := some k, size := size, kinderr := none }

/-- `Kind`: an error of an earlier header is returned again. -/
def kindOf : Res (Kind × ℕ) :=
  match s.kind, s.kinderr with
  | none, _ => readHeader s
  | some _, some e => .error e s
  | some k, none => .ok (k, s.size) s

/-- `Stream.Bytes`. -/
def bytes : Res Bytes :=
  (kindOf s).andThen fun (kind, size) s =>
    match kind with
    | .byte => .ok [s.byteval] { s with kind := none }
    | .string => (readFull size s).andThen fun b s =>
        if Single b then .error .canonSize s else .ok b s
    | .list => .error .expectedString s

/-- `Stream.List`. -/
def list : Res ℕ :=
  (kindOf s).andThen fun (kind, size) s =>
    if kind = .list then
      .ok size { s with stack := ⟨0, size⟩ :: s.stack, kind := none, size := 0 }
    else .error .expectedList s

/-- `Stream.ListEnd`. -/
def listEnd : Res Unit :=
  match s.stack with
  | [] => .error .notInList s
  | tos :: rest =>
    if tos.pos ≠ tos.size then .error .notAtEOL s
    else
      let rest := match rest with
        | [] => []
        | outer :: rest => ⟨outer.pos + tos.size, outer.size⟩ :: rest
      .ok () { s with stack := rest, kind := none, size := 0 }

end Stream

/-! ## Moving over bytes -/

/-- The position in the innermost list moves. -/
def bump (n : ℕ) : List ListPos → List ListPos
  | [] => []
  | tos :: rest => ⟨tos.pos + n, tos.size⟩ :: rest

namespace Cursor

/-- `n` more bytes can be read, within the limit and the innermost list. -/
def Room (n : ℕ) (c : Cursor) : Prop :=
  n ≤ c.input.length ∧ (c.limited = true → n ≤ c.remaining) ∧
    ∀ tos ∈ c.stack.head?, n ≤ tos.size - tos.pos

/-- So many bytes are read. -/
def advance (n : ℕ) (c : Cursor) : Cursor where
  input := c.input.drop n
  remaining := if c.limited then c.remaining - n else c.remaining
  limited := c.limited
  stack := bump n c.stack

variable {c : Cursor} {m n : ℕ}

theorem room_add : c.Room (m + n) ↔ c.Room m ∧ (c.advance m).Room n := by
  obtain ⟨input, remaining, limited, stack⟩ := c
  have hinput : m + n ≤ input.length ↔ m ≤ input.length ∧ n ≤ (input.drop m).length := by
    rw [length_drop]
    omega
  have hlimit : (limited = true → m + n ≤ remaining) ↔ (limited = true → m ≤ remaining) ∧
      (limited = true → n ≤ if limited then remaining - m else remaining) := by
    cases limited with
    | false => simp
    | true =>
      simp only [true_implies, if_true]
      omega
  have hstack : (∀ tos ∈ stack.head?, m + n ≤ tos.size - tos.pos) ↔
      (∀ tos ∈ stack.head?, m ≤ tos.size - tos.pos) ∧
      ∀ tos ∈ (bump m stack).head?, n ≤ tos.size - tos.pos := by
    cases stack with
    | nil => simp [bump]
    | cons tos rest =>
      simp only [bump, head?_cons, mem_def, some.injEq, forall_eq']
      omega
  simp only [Room, advance, hinput, hlimit, hstack]
  tauto

theorem advance_advance (m n : ℕ) (c : Cursor) : (c.advance m).advance n = c.advance (m + n) := by
  obtain ⟨input, remaining, limited, stack⟩ := c
  simp only [advance, drop_drop, mk.injEq, true_and]
  refine ⟨?_, ?_⟩
  · cases limited with
    | false => rfl
    | true => exact Nat.sub_sub _ _ _
  · cases stack with
    | nil => rfl
    | cons tos rest => simp only [bump, Nat.add_assoc]

theorem advance_zero (c : Cursor) : c.advance 0 = c := by
  obtain ⟨input, remaining, limited, stack⟩ := c
  cases stack <;> cases limited <;> rfl

theorem Room.mono (h : c.Room n) (le : m ≤ n) : c.Room m :=
  ⟨le.trans h.1, fun hl => le.trans (h.2.1 hl), fun tos ht => le.trans (h.2.2 tos ht)⟩

end Cursor

namespace Stream

variable {s s' u : Stream} {n : ℕ} {bs hd cs : Bytes} {size : ℕ} {r : Kind × ℕ} {b : UInt8}

/-- So many bytes are read, and the kind is forgotten. -/
def moved (n : ℕ) (s : Stream) : Stream := { s with toCursor := s.toCursor.advance n, kind := none }

theorem willRead_eq_ok : willRead n s = .ok () s' ↔
    (s.limited = true → n ≤ s.remaining) ∧ (∀ tos ∈ s.stack.head?, n ≤ tos.size - tos.pos) ∧
      s' = { s.moved n with input := s.input } := by
  obtain ⟨⟨input, remaining, limited, stack⟩, kind, size, byteval, kinderr⟩ := s
  cases stack with
  | nil =>
    cases limited with
    | false => simp [willRead, takeInput, moved, Cursor.advance, bump, eq_comm]
    | true =>
      by_cases h : remaining < n
      · simp [willRead, takeInput, h]
      · simp [willRead, takeInput, moved, Cursor.advance, bump, h, Nat.not_lt.1 h, eq_comm]
  | cons tos rest =>
    by_cases ht : tos.size - tos.pos < n
    · simp [willRead, ht]
    cases limited with
    | false => simp [willRead, takeInput, moved, Cursor.advance, bump, ht, Nat.not_lt.1 ht, eq_comm]
    | true =>
      by_cases h : remaining < n
      · simp [willRead, takeInput, ht, h]
      · simp [willRead, takeInput, moved, Cursor.advance, bump, ht, Nat.not_lt.1 ht, h, Nat.not_lt.1 h,
          eq_comm]

variable {e : Err}

theorem willRead_error (h : willRead n s = .error e s') : e = .elemTooLarge ∨ e = .valueTooLarge := by
  have limit : ∀ t : Stream, takeInput n t = .error e s' → e = .valueTooLarge := by
    intro t ht
    unfold takeInput at ht
    split_ifs at ht
    cases ht
    rfl
  unfold willRead at h
  split at h
  · exact .inr (limit _ h)
  · split_ifs at h
    · cases h
      exact .inl rfl
    · exact .inr (limit _ h)

theorem readFull_eq_ok : readFull n s = .ok bs s' ↔ s.Room n ∧ bs = s.input.take n ∧
    s' = s.moved n := by
  unfold readFull
  rw [Res.andThen_eq_ok]
  constructor
  · rintro ⟨⟨⟩, t, hw, h⟩
    obtain ⟨hl, hs, rfl⟩ := willRead_eq_ok.1 hw
    split_ifs at h with short
    cases h
    exact ⟨⟨Nat.not_lt.1 short, hl, hs⟩, rfl, rfl⟩
  · rintro ⟨⟨enough, hl, hs⟩, rfl, rfl⟩
    exact ⟨(), _, willRead_eq_ok.2 ⟨hl, hs, rfl⟩, if_neg (Nat.not_lt.2 enough)⟩

theorem readByte_eq_ok : readByte s = .ok b s' ↔ s.Room 1 ∧ s.input.head? = some b ∧
    s' = s.moved 1 := by
  unfold readByte
  rw [Res.andThen_eq_ok]
  obtain ⟨⟨input, remaining, limited, stack⟩, kind, size, byteval, kinderr⟩ := s
  constructor
  · rintro ⟨⟨⟩, t, hw, h⟩
    obtain ⟨hl, hs, rfl⟩ := willRead_eq_ok.1 hw
    cases input with
    | nil => cases h
    | cons first rest =>
      cases h
      exact ⟨⟨Nat.succ_pos _, hl, hs⟩, rfl, rfl⟩
  · rintro ⟨⟨enough, hl, hs⟩, h, rfl⟩
    refine ⟨(), _, willRead_eq_ok.2 ⟨hl, hs, rfl⟩, ?_⟩
    cases input with
    | nil => cases h
    | cons first rest =>
      cases h
      rfl

theorem exists_head_of_room (h : s.Room n) (pos : 0 < n) : ∃ b, s.input.head? = some b := by
  cases hi : s.input with
  | nil =>
    have := h.1
    rw [hi, length_nil] at this
    omega
  | cons first rest => exact ⟨first, rfl⟩

/-- An error of the input: neither the end of a list nor the model's bound. -/
def InputError (e : Err) : Prop := e ≠ .eol ∧ e ≠ .fuel

theorem readFull_error (h : readFull n s = .error e s') : InputError e := by
  rcases Res.andThen_eq_error.1 h with hw | ⟨⟨⟩, t, -, h⟩
  · rcases willRead_error hw with rfl | rfl <;> exact ⟨nofun, nofun⟩
  · split_ifs at h
    cases h
    exact ⟨nofun, nofun⟩

theorem readByte_error (h : readByte s = .error e s') : InputError e := by
  rcases Res.andThen_eq_error.1 h with hw | ⟨⟨⟩, t, -, h⟩
  · rcases willRead_error hw with rfl | rfl <;> exact ⟨by simp, by simp⟩
  · split at h
    · cases h
      exact ⟨by simp, by simp⟩
    · cases h

theorem head_take (pos : 0 < n) (bs : Bytes) : (bs.take n).head? = bs.head? := by
  cases bs with
  | nil => rw [take_nil]
  | cons b bs =>
    cases n with
    | zero => omega
    | succ n => rfl

theorem value_take_one (h : bs.head? = some b) : value (bs.take 1) = b.toNat := by
  cases bs with
  | nil => cases h
  | cons first rest =>
    cases h
    exact value_singleton _

theorem readUint_eq_ok {v : ℕ} (pos : 0 < n) : readUint n s = .ok v s' ↔
    s.Room n ∧ (n = 1 ∨ s.input.head? ≠ some 0) ∧ v = value (s.input.take n) ∧ s' = s.moved n := by
  unfold readUint
  rw [if_neg (by omega)]
  by_cases one : n = 1
  · subst one
    rw [if_pos rfl, Res.andThen_eq_ok]
    constructor
    · rintro ⟨b, t, hb, h⟩
      obtain ⟨room, head, rfl⟩ := readByte_eq_ok.1 hb
      cases h
      exact ⟨room, .inl rfl, (value_take_one head).symm, rfl⟩
    · rintro ⟨room, -, rfl, rfl⟩
      obtain ⟨b, head⟩ := exists_head_of_room room pos
      exact ⟨b, _, readByte_eq_ok.2 ⟨room, head, rfl⟩, by rw [value_take_one head]⟩
  · rw [if_neg one, Res.andThen_eq_ok]
    constructor
    · rintro ⟨b, t, hb, h⟩
      obtain ⟨room, rfl, rfl⟩ := readFull_eq_ok.1 hb
      rw [head_take pos] at h
      split_ifs at h with zero
      cases h
      exact ⟨room, .inr zero, rfl, rfl⟩
    · rintro ⟨room, head, rfl, rfl⟩
      refine ⟨_, _, readFull_eq_ok.2 ⟨room, rfl, rfl⟩, ?_⟩
      rw [head_take pos, if_neg (head.resolve_left one)]

theorem readUint_error (h : readUint n s = .error e s') : InputError e := by
  unfold readUint at h
  split_ifs at h
  · exact readByte_error (Res.andThen_ok_eq_error.1 h)
  · rcases Res.andThen_eq_error.1 h with hf | ⟨b, t, -, h⟩
    · exact readFull_error hf
    · split_ifs at h
      cases h
      exact ⟨nofun, nofun⟩

variable {k k' : Kind}

theorem readLong_eq (pos : 0 < n) :
    readLong k n s = ((k', size, none), s') ↔ k' = k ∧ 56 ≤ size ∧ (minimal size).length = n ∧
      minimal size <+: s.input ∧ s.Room n ∧ s' = s.moved n := by
  have read_back : ∀ {size : ℕ}, (minimal size).length = n → minimal size <+: s.input →
      value (s.input.take n) = size := by
    intro size hlen front
    rw [prefix_iff_eq_take, hlen] at front
    rw [← front, value_minimal]
  unfold readLong
  rcases hu : readUint n s with ⟨v, t⟩ | ⟨e, t⟩
  · obtain ⟨room, head, rfl, rfl⟩ := (readUint_eq_ok pos).1 hu
    dsimp only
    split_ifs with small
    · refine ⟨nofun, fun ⟨_, large, hlen, front, _, _⟩ => ?_⟩
      rw [read_back hlen front] at small
      omega
    · constructor
      · intro h
        cases h
        -- a number of one byte that is not below 56 is not zero either
        have nonzero : s.input.head? ≠ some 0 := by
          rcases head with rfl | head
          · intro zero
            rw [value_take_one zero] at small
            exact small (by decide)
          · exact head
        have whole := minimal_value (by rwa [head_take pos] : (s.input.take n).head? ≠ some 0)
        refine ⟨rfl, Nat.not_lt.1 small, ?_, ?_, room, rfl⟩
        · rw [whole, length_take_of_le room.1]
        · rw [whole]
          exact take_prefix n s.input
      · rintro ⟨rfl, large, hlen, front, -, rfl⟩
        rw [read_back hlen front]
  · refine ⟨nofun, fun ⟨_, large, hlen, ⟨rest, hrest⟩, room, _⟩ => ?_⟩
    have head : s.input.head? ≠ some 0 := by
      rw [← hrest, head?_append_of_ne_nil _ (minimal_ne_nil (by omega))]
      exact head_minimal size
    rw [(readUint_eq_ok pos).2 ⟨room, .inr head, rfl, rfl⟩] at hu
    cases hu

theorem readLong_error (h : readLong k n s = ((k', size, some e), s')) : InputError e := by
  unfold readLong at h
  rcases hu : readUint n s with ⟨v, t⟩ | ⟨e', t⟩ <;> rw [hu] at h
  · dsimp only at h
    split_ifs at h <;> cases h
    exact ⟨nofun, nofun⟩
  · cases h
    exact readUint_error hu

/-- The header of a value: its kind, its size, the byte it stands for, and its bytes. -/
inductive Head : Kind → ℕ → UInt8 → Bytes → Prop where
  | byte {b : UInt8} (h : b < 0x80) : Head .byte 0 b [b]
  | string {n : ℕ} (h : n < 2 ^ 64) : Head .string n 0 (header 0x80 0xB7 n)
  | list {n : ℕ} (h : n < 2 ^ 64) : Head .list n 0 (header 0xC0 0xF7 n)

theorem Head.ne_nil {bv : UInt8} (h : Head k size bv hd) : hd ≠ [] := by
  cases h with
  | byte => exact cons_ne_nil _ _
  | string | list => exact header_ne_nil _ _ _

theorem long_header {short long : UInt8} {size l : ℕ} (large : 56 ≤ size)
    (hlen : (minimal size).length = l + 1) : header short long size =
      (long + UInt8.ofNat (l + 1)) :: minimal size := by
  rw [header_long large, hlen]

theorem fits_of_length_minimal {size l : ℕ} (hlen : (minimal size).length = l + 1) (hl : l < 8) :
    size < 2 ^ 64 := by
  have := length_minimal_le.1 (hlen.trans_le (by omega : l + 1 ≤ 8))
  exact this

theorem prefix_cons_iff (head : s.input.head? = some b) :
    b :: hd <+: s.input ↔ hd <+: (s.moved 1).input := by
  cases hi : s.input with
  | nil => simp [hi] at head
  | cons first rest =>
    rw [hi, head?_cons, some.injEq] at head
    simp [moved, Cursor.advance, hi, head]

theorem moved_moved (m n : ℕ) (s : Stream) : (s.moved m).moved n = s.moved (m + n) := by
  simp only [moved, Cursor.advance_advance]

theorem readLong_header (short long : UInt8) {l size : ℕ} (room : s.Room 1)
    (head : s.input.head? = some (long + UInt8.ofNat (l + 1))) :
    readLong k (l + 1) { s.moved 1 with byteval := 0 } = ((k', size, none), s') ↔
      k' = k ∧ 56 ≤ size ∧ (minimal size).length = l + 1 ∧ header short long size <+: s.input ∧
        s.Room (header short long size).length ∧
        s' = { s.moved (header short long size).length with byteval := 0 } := by
  rw [readLong_eq (Nat.succ_pos l)]
  refine and_congr_right fun _ => and_congr_right fun large => and_congr_right fun hlen => ?_
  have len : (header short long size).length = 1 + (l + 1) := by
    rw [long_header large hlen, length_cons, hlen, Nat.add_comm]
  rw [len, long_header large hlen, prefix_cons_iff head]
  have hroom : s.Room (1 + (l + 1)) ↔ (s.moved 1).Room (l + 1) := by
    rw [Cursor.room_add]
    exact and_iff_right room
  have hmoved : s.moved (1 + (l + 1)) = (s.moved 1).moved (l + 1) := (moved_moved 1 (l + 1) s).symm
  rw [hroom, hmoved]
  rfl

theorem readKind_eq : readKind s = ((k, size, none), s') ↔
    ∃ hd bv, Head k size bv hd ∧ hd <+: s.input ∧ s.Room hd.length ∧
      s' = { s.moved hd.length with byteval := bv } := by
  have single : ∀ {b : UInt8}, s.input.head? = some b → [b] <+: s.input := fun head =>
    (prefix_cons_iff head).2 nil_prefix
  unfold readKind
  constructor
  · intro h
    rcases hb : readByte s with ⟨b, t⟩ | ⟨e, t⟩ <;> rw [hb] at h
    · obtain ⟨room, head, rfl⟩ := readByte_eq_ok.1 hb
      dsimp only at h
      obtain small | ⟨n, hn, rfl⟩ | ⟨l, hl, rfl⟩ | ⟨n, hn, rfl⟩ | ⟨l, hl, rfl⟩ := tag_cases b
      · rw [if_pos small] at h
        cases h
        exact ⟨[b], b, .byte small, single head, room, rfl⟩
      · obtain ⟨h1, h2, h3⟩ := shortString_tag hn
        rw [if_neg h1, if_pos h2, h3] at h
        cases h
        refine ⟨_, 0, .string (by omega), ?_⟩
        rw [header_short hn]
        exact ⟨single head, room, rfl⟩
      · obtain ⟨h1, h2, h3, h4⟩ := longString_tag hl
        rw [if_neg h1, if_neg h2, if_pos h3, h4] at h
        obtain ⟨rfl, large, hlen, front, room, rfl⟩ := (readLong_header 0x80 0xB7 room head).1 h
        exact ⟨_, 0, .string (fits_of_length_minimal hlen hl), front, room, rfl⟩
      · obtain ⟨h1, h2, h3, h4, h5⟩ := shortList_tag hn
        rw [if_neg h1, if_neg h2, if_neg h3, if_pos h4, h5] at h
        cases h
        refine ⟨_, 0, .list (by omega), ?_⟩
        rw [header_short hn]
        exact ⟨single head, room, rfl⟩
      · obtain ⟨h1, h2, h3, h4, h5⟩ := longList_tag hl
        rw [if_neg h1, if_neg h2, if_neg h3, if_neg h4, h5] at h
        obtain ⟨rfl, large, hlen, front, room, rfl⟩ := (readLong_header 0xC0 0xF7 room head).1 h
        exact ⟨_, 0, .list (fits_of_length_minimal hlen hl), front, room, rfl⟩
    · dsimp only at h
      split_ifs at h <;> cases h
  · rintro ⟨hd, bv, hh, front, room, rfl⟩
    have room1 : s.Room 1 := room.mono (length_pos_iff.2 hh.ne_nil)
    have first : ∀ {b : UInt8} {tl : Bytes}, hd = b :: tl → readByte s = .ok b (s.moved 1) ∧
        s.input.head? = some b := by
      rintro b tl rfl
      have head : s.input.head? = some b := by
        obtain ⟨rest, hrest⟩ := front
        rw [← hrest]
        rfl
      exact ⟨readByte_eq_ok.2 ⟨room1, head, rfl⟩, head⟩
    cases hh with
    | byte small =>
      rw [(first rfl).1]
      exact if_pos small
    | string fits =>
      rcases Nat.lt_or_ge size 56 with short | long
      · obtain ⟨h1, h2, h3⟩ := shortString_tag short
        rw [(first (header_short short)).1, header_short short]
        dsimp only
        rw [if_neg h1, if_pos h2, h3]
        rfl
      · obtain ⟨l, hl, hlen⟩ := length_minimal_of_fits long fits
        obtain ⟨h1, h2, h3, h4⟩ := longString_tag hl
        obtain ⟨hb, head⟩ := first (long_header long hlen)
        rw [hb]
        dsimp only
        rw [if_neg h1, if_neg h2, if_pos h3, h4]
        exact (readLong_header _ _ room1 head).2 ⟨rfl, long, hlen, front, room, rfl⟩
    | list fits =>
      rcases Nat.lt_or_ge size 56 with short | long
      · obtain ⟨h1, h2, h3, h4, h5⟩ := shortList_tag short
        rw [(first (header_short short)).1, header_short short]
        dsimp only
        rw [if_neg h1, if_neg h2, if_neg h3, if_pos h4, h5]
        rfl
      · obtain ⟨l, hl, hlen⟩ := length_minimal_of_fits long fits
        obtain ⟨h1, h2, h3, h4, h5⟩ := longList_tag hl
        obtain ⟨hb, head⟩ := first (long_header long hlen)
        rw [hb]
        dsimp only
        rw [if_neg h1, if_neg h2, if_neg h3, if_neg h4, h5]
        exact (readLong_header _ _ room1 head).2 ⟨rfl, long, hlen, front, room, rfl⟩

theorem readKind_error (h : readKind s = ((k, size, some e), s')) : InputError e := by
  unfold readKind at h
  rcases hb : readByte s with ⟨b, t⟩ | ⟨e', t⟩ <;> rw [hb] at h <;> dsimp only at h
  · split_ifs at h
    · cases h
    · cases h
    · exact readLong_error h
    · cases h
    · exact readLong_error h
  · split_ifs at h
    · cases h
      exact ⟨nofun, nofun⟩
    · cases h
      exact readByte_error hb

/-! ## Values -/

/-- A value of the size stays within the innermost list, or the input. -/
def Holds (size : ℕ) (s : Stream) : Prop := tooLarge size s = none

theorem Holds.of_room (h : s.Room n) : s.Holds n := by
  unfold Holds tooLarge
  cases hs : s.stack with
  | nil => exact if_neg fun ⟨hl, lt⟩ => absurd (h.2.1 hl) (Nat.not_le.2 lt)
  | cons tos rest => exact if_neg (Nat.not_lt.2 (h.2.2 tos (by rw [hs]; rfl)))

theorem Holds.le {tos : ListPos} (h : s.Holds n) (ht : tos ∈ s.stack.head?) :
    n ≤ tos.size - tos.pos := by
  unfold Holds tooLarge at h
  cases hs : s.stack with
  | nil =>
    rw [hs] at ht
    cases ht
  | cons outer rest =>
    rw [hs] at ht h
    cases ht
    dsimp only at h
    split_ifs at h with large
    exact Nat.not_lt.1 large

theorem not_atEnd_of_room (h : s.Room n) (pos : 0 < n) : ¬ s.AtEnd := by
  rintro ⟨tos, ht, hend⟩
  have := h.2.2 tos ht
  omega

/-- The header of a value is read. -/
def headed (hd : Bytes) (k : Kind) (size : ℕ) (bv : UInt8) (s : Stream) : Stream :=
  { s.moved hd.length with kind := some k, size := size, byteval := bv, kinderr := none }

theorem kindOf_of_none (hk : s.kind = none) : kindOf s = readHeader s := by
  unfold kindOf
  rw [hk]

theorem kindOf_eq_ok (hk : s.kind = none) : kindOf s = .ok (k, size) s' ↔
    ∃ hd bv, Head k size bv hd ∧ hd <+: s.input ∧ s.Room hd.length ∧
      (s.moved hd.length).Holds size ∧ s' = s.headed hd k size bv := by
  rw [kindOf_of_none hk]
  unfold readHeader
  constructor
  · intro h
    split_ifs at h with hend
    rcases hr : readKind { s with kinderr := none } with ⟨⟨k', size', _ | e⟩, t⟩ <;> rw [hr] at h <;>
      dsimp only at h
    · rcases ht : tooLarge size' t with _ | e <;> rw [ht] at h <;> cases h
      obtain ⟨hd, bv, hh, front, room, rfl⟩ := readKind_eq.1 hr
      exact ⟨hd, bv, hh, front, room, ht, rfl⟩
    · cases h
  · rintro ⟨hd, bv, hh, front, room, holds, rfl⟩
    have hr : readKind { s with kinderr := none } = ((k, size, none),
        { ({ s with kinderr := none } : Stream).moved hd.length with byteval := bv }) :=
      readKind_eq.2 ⟨hd, bv, hh, front, room, rfl⟩
    have hend : ¬ s.AtEnd := not_atEnd_of_room room (length_pos_iff.2 hh.ne_nil)
    have ht : tooLarge size
        { ({ s with kinderr := none } : Stream).moved hd.length with byteval := bv } = none := holds
    rw [if_neg hend, hr]
    dsimp only
    rw [ht]
    rfl

theorem kindOf_kindOf (h : kindOf s = .ok r s') : kindOf s' = .ok r s' := by
  cases hk : s.kind with
  | none =>
    obtain ⟨hd, bv, -, -, -, -, rfl⟩ := (kindOf_eq_ok hk).1 h
    rfl
  | some k' =>
    have hs := h
    unfold kindOf at hs
    rw [hk] at hs
    cases he : s.kinderr with
    | some e =>
      rw [he] at hs
      cases hs
    | none =>
      rw [he] at hs
      cases hs
      exact h

theorem kindOf_error (hk : s.kind = none) (h : kindOf s = .error e s') :
    e = .eol ∧ s.AtEnd ∧ s' = { s with kinderr := none } ∨ e ≠ .eol ∧ e ≠ .fuel := by
  rw [kindOf_of_none hk] at h
  unfold readHeader at h
  split_ifs at h with hend
  · cases h
    exact .inl ⟨rfl, hend, rfl⟩
  · right
    rcases hr : readKind { s with kinderr := none } with ⟨⟨k', size', _ | e'⟩, t⟩ <;> rw [hr] at h <;>
      dsimp only at h
    · rcases ht : tooLarge size' t with _ | e' <;> rw [ht] at h <;> cases h
      unfold tooLarge at ht
      split at ht <;> split_ifs at ht <;> cases ht <;> exact ⟨nofun, nofun⟩
    · cases h
      exact readKind_error hr

theorem kindOf_eq_eol (hk : s.kind = none) :
    kindOf s = .error .eol s' ↔ s.AtEnd ∧ s' = { s with kinderr := none } := by
  refine ⟨fun h => (kindOf_error hk h).elim And.right fun other => absurd rfl other.1, ?_⟩
  rintro ⟨hend, rfl⟩
  rw [kindOf_of_none hk, readHeader, if_pos hend]

theorem kindOf_ne_fuel (hk : s.kind = none) (h : kindOf s = .error e s') : e ≠ .fuel := by
  rcases kindOf_error hk h with ⟨rfl, -⟩ | other
  · exact nofun
  · exact other.2

/-- Between `s` and `s'` the bytes `bs` were read, and no header is pending. -/
structure Reads (s : Stream) (bs : Bytes) (s' : Stream) : Prop where
  front : bs <+: s.input
  room : s.Room bs.length
  cursor : s'.toCursor = s.toCursor.advance bs.length
  kind : s'.kind = none

variable {t : Stream}

theorem Reads.refl (h : t.toCursor = s.toCursor) (hk : t.kind = none) (room : s.Room 0) :
    Reads s [] t :=
  ⟨List.nil_prefix, room, by rw [h, length_nil, Cursor.advance_zero], hk⟩

theorem room_zero (s : Stream) : s.Room 0 :=
  ⟨Nat.zero_le _, fun _ => Nat.zero_le _, fun _ _ => Nat.zero_le _⟩

/-- These bytes come next, and they may be read. -/
def Ahead (bs : Bytes) (s : Stream) : Prop := bs <+: s.input ∧ s.Room bs.length

theorem Reads.ahead (h : Reads s bs s') : s.Ahead bs := ⟨h.front, h.room⟩

theorem ahead_append : s.Ahead (bs ++ cs) ↔ s.Ahead bs ∧ (s.moved bs.length).Ahead cs := by
  unfold Ahead
  rw [length_append, Cursor.room_add]
  constructor
  · rintro ⟨⟨rest, hrest⟩, room, room'⟩
    refine ⟨⟨⟨cs ++ rest, by rw [← append_assoc, hrest]⟩, room⟩, ⟨rest, ?_⟩, room'⟩
    simp [moved, Cursor.advance, ← hrest]
  · rintro ⟨⟨⟨rest, hrest⟩, room⟩, ⟨rest', hrest'⟩, room'⟩
    refine ⟨⟨rest', ?_⟩, room, room'⟩
    have hin : (s.moved bs.length).input = rest := by simp [moved, Cursor.advance, ← hrest]
    rw [append_assoc, hrest', hin, hrest]

theorem Ahead.congr (h : t.toCursor = s.toCursor) : t.Ahead bs ↔ s.Ahead bs := by
  unfold Ahead
  rw [h]

theorem Reads.trans (h : Reads s bs t) (h' : Reads t cs u) : Reads s (bs ++ cs) u := by
  have whole : s.Ahead (bs ++ cs) := ahead_append.2 ⟨h.ahead, (Ahead.congr h.cursor).1 h'.ahead⟩
  refine ⟨whole.1, whole.2, ?_, h'.kind⟩
  rw [h'.cursor, h.cursor, Cursor.advance_advance, length_append]

theorem bytes_sound (hk : s.kind = none) (h : bytes s = .ok bs s') :
    bs.length < 2 ^ 64 ∧ Reads s (encodeString bs) s' := by
  obtain ⟨⟨k, size⟩, t, ht, h⟩ := Res.andThen_eq_ok.1 h
  obtain ⟨hd, bv, hh, front, room, -, rfl⟩ := (kindOf_eq_ok hk).1 ht
  cases hh with
  | byte small =>
    cases h
    refine ⟨by norm_num, ?_⟩
    change Reads s (encodeString [bv]) _
    rw [encodeString_single small]
    exact ⟨front, room, rfl, rfl⟩
  | string fits =>
    obtain ⟨b, u, hf, h⟩ := Res.andThen_eq_ok.1 h
    obtain ⟨room', rfl, rfl⟩ := readFull_eq_ok.1 hf
    split_ifs at h with single
    cases h
    have len : ((s.headed (header 0x80 0xB7 size) .string size 0).input.take size).length = size :=
      length_take_of_le room'.1
    have ahead := ahead_append.2 ⟨⟨front, room⟩, take_prefix size _, len.symm ▸ room'⟩
    rw [encodeString_of_not_single single, len]
    refine ⟨fits, ahead.1, ahead.2, ?_, rfl⟩
    rw [length_append]
    simp only [headed, moved, Cursor.advance_advance] at len ⊢
    rw [len]
  | list => cases h

theorem bytes_complete (hk : s.kind = none) (fits : bs.length < 2 ^ 64)
    (h : s.Ahead (encodeString bs)) : ∃ s', bytes s = .ok bs s' ∧ Reads s (encodeString bs) s' := by
  suffices hb : ∃ s', bytes s = .ok bs s' from hb.imp fun s' hb => ⟨hb, (bytes_sound hk hb).2⟩
  by_cases single : Single bs
  · obtain ⟨b, rfl, small⟩ := single_iff.1 single
    rw [encodeString_single small] at h
    have ht := (kindOf_eq_ok hk).2 ⟨[b], b, .byte small, h.1, h.2,
      Holds.of_room (room_zero _), rfl⟩
    refine ⟨_, Res.andThen_eq_ok.2 ⟨_, _, ht, rfl⟩⟩
  · rw [encodeString_of_not_single single] at h
    obtain ⟨⟨front, room⟩, front', room'⟩ := ahead_append.1 h
    have ht := (kindOf_eq_ok hk).2 ⟨_, 0, .string fits, front, room, Holds.of_room room', rfl⟩
    have hf : readFull bs.length (s.headed (header 0x80 0xB7 bs.length) .string bs.length 0) =
        .ok bs _ := readFull_eq_ok.2 ⟨room', prefix_iff_eq_take.1 front', rfl⟩
    refine ⟨_, Res.andThen_eq_ok.2 ⟨_, _, ht, Res.andThen_eq_ok.2 ⟨_, _, hf, if_neg single⟩⟩⟩

theorem bytes_of_kindOf (h : kindOf s = .ok r s') : bytes s' = bytes s := by
  unfold bytes
  rw [kindOf_kindOf h, h]

theorem list_of_kindOf (h : kindOf s = .ok r s') : list s' = list s := by
  unfold list
  rw [kindOf_kindOf h, h]

theorem bytes_error (h : bytes s = .error e s') : kindOf s = .error e s' ∨ InputError e := by
  rcases Res.andThen_eq_error.1 h with h | ⟨⟨k, size⟩, t, -, h⟩
  · exact .inl h
  · right
    cases k with
    | byte => cases h
    | string =>
      rcases Res.andThen_eq_error.1 h with hf | ⟨b, u, -, h⟩
      · exact readFull_error hf
      · split_ifs at h
        cases h
        exact ⟨nofun, nofun⟩
    | list =>
      cases h
      exact ⟨nofun, nofun⟩

/-- A list is entered. -/
def opened (size : ℕ) (s : Stream) : Stream :=
  { s.headed (header 0xC0 0xF7 size) .list size 0 with
    stack := ⟨0, size⟩ :: (s.moved (header 0xC0 0xF7 size).length).stack, kind := none, size := 0 }

theorem list_eq_ok (hk : s.kind = none) : list s = .ok size s' ↔
    size < 2 ^ 64 ∧ s.Ahead (header 0xC0 0xF7 size) ∧
      (s.moved (header 0xC0 0xF7 size).length).Holds size ∧ s' = s.opened size := by
  constructor
  · intro h
    obtain ⟨⟨k, size'⟩, t, ht, h⟩ := Res.andThen_eq_ok.1 h
    obtain ⟨hd, bv, hh, front, room, holds, rfl⟩ := (kindOf_eq_ok hk).1 ht
    cases hh with
    | byte | string => cases h
    | list fits =>
      cases h
      exact ⟨fits, ⟨front, room⟩, holds, rfl⟩
  · rintro ⟨fits, ⟨front, room⟩, holds, rfl⟩
    have ht := (kindOf_eq_ok hk).2 ⟨_, 0, .list fits, front, room, holds, rfl⟩
    exact Res.andThen_eq_ok.2 ⟨_, _, ht, rfl⟩

theorem listEnd_eq_ok (h : Reads (s.opened size) bs t) : listEnd t = .ok () s' ↔ bs.length = size ∧
      s' = { t with stack := bump size (s.moved (header 0xC0 0xF7 size).length).stack, size := 0 } := by
  have hstack : t.stack = ⟨0 + bs.length, size⟩ :: (s.moved (header 0xC0 0xF7 size).length).stack :=
    congrArg Cursor.stack h.cursor
  have hkind := h.kind
  unfold listEnd
  rw [hstack]
  dsimp only
  rw [Nat.zero_add]
  split_ifs with ne
  · exact ⟨nofun, fun hs => absurd hs.1 ne⟩
  · rw [not_not] at ne
    obtain ⟨c, kind, sz, bv, ke⟩ := t
    cases hkind
    constructor
    · intro hs
      cases hs
      refine ⟨ne, ?_⟩
      cases (s.moved (header 0xC0 0xF7 size).length).stack <;> rfl
    · rintro ⟨-, rfl⟩
      cases (s.moved (header 0xC0 0xF7 size).length).stack <;> rfl

theorem listEnd_error (h : listEnd s = .error e s') : InputError e := by
  unfold listEnd at h
  split at h
  · cases h
    exact ⟨nofun, nofun⟩
  · split_ifs at h
    cases h
    exact ⟨nofun, nofun⟩

theorem reads_list (hk : s.kind = none) (hl : list s = .ok size t) (h : Reads t bs u)
    (he : listEnd u = .ok () s') : bs.length < 2 ^ 64 ∧ Reads s (encodeList bs) s' := by
  obtain ⟨fits, ahead, holds, rfl⟩ := (list_eq_ok hk).1 hl
  obtain ⟨rfl, rfl⟩ := (listEnd_eq_ok h).1 he
  have room : (s.moved (header 0xC0 0xF7 bs.length).length).Room bs.length :=
    ⟨h.room.1, h.room.2.1, fun tos ht => holds.le ht⟩
  have whole := ahead_append.2 ⟨ahead, h.front, room⟩
  refine ⟨fits, whole.1, whole.2, ?_, h.kind⟩
  have hc := h.cursor
  rw [encodeList, length_append, ← Cursor.advance_advance]
  obtain ⟨⟨input, remaining, limited, stack⟩, kind, sz, bv, ke⟩ := u
  simp only [opened, headed, moved, Cursor.advance, Cursor.mk.injEq] at hc ⊢
  exact ⟨hc.1, hc.2.1, hc.2.2.1, trivial⟩

theorem list_complete (hk : s.kind = none) (fits : bs.length < 2 ^ 64) (h : s.Ahead (encodeList bs)) :
    list s = .ok bs.length (s.opened bs.length) ∧ (s.opened bs.length).Ahead bs := by
  obtain ⟨ahead, front, room⟩ := ahead_append.1 h
  refine ⟨(list_eq_ok hk).2 ⟨fits, ahead, Holds.of_room room, rfl⟩, front, room.1, room.2.1, ?_⟩
  intro tos ht
  cases ht
  exact le_rfl

end Stream

end JuChain.Rlp
