import JuChain.Core.Types
import JuChain.Lib.Rlp
import JuChain.Lib.Slices

/-!
# Raw values

`common/rlp/raw.go`: the functions that cut a byte slice into encoded values without decoding them.
The only buffer on which `readKind` crashes is the single byte `0x81`.
-/

namespace JuChain.Rlp

open Slices BigEndian RLP List UInt8

variable {content : Bytes} {first : UInt8}

/-- `decode` is a `decodeError`: message, type and path.  `fuel` is a loop of the model that ran
longer than its bound. -/
inductive Err where
  | eof
  | unexpectedEOF
  | eol
  | expectedString
  | expectedList
  | canonInt
  | canonSize
  | elemTooLarge
  | valueTooLarge
  | moreThanOneValue
  | notInList
  | notAtEOL
  | uintOverflow
  | negativeBigInt
  | decode (msg typ : String) (ctx : List String)
  | fuel
  deriving DecidableEq

inductive Kind where
  | byte
  | string
  | list
  deriving DecidableEq

def readSize (b : Bytes) (slen : ℕ) : Except (Fault Err) ℕ :=
  if b.length < slen then .error (.err .unexpectedEOF)
  else if value (b.take slen) < 56 then .error (.err .canonSize)
  else do
    let first ← index b 0
    if first = 0 then .error (.err .canonSize) else pure (value (b.take slen))

/-- The switch of `readKind`: kind, size of the tag and size of the content. -/
def readTag (b : UInt8) (buf : Bytes) : Except (Fault Err) (Kind × ℕ × ℕ) :=
  if b < 0x80 then pure (.byte, 0, 1)
  else if b < 0xB8 then
    -- the length is compared first, so `buf[1]` is only read for strings of one byte
    if (b - 0x80).toNat = 1 then do
      let content ← index buf 1
      if content < 128 then .error (.err .canonSize) else pure (.string, 1, 1)
    else pure (.string, 1, (b - 0x80).toNat)
  else if b < 0xC0 then do
    let size ← readSize (buf.drop 1) (b - 0xB7).toNat
    pure (.string, (b - 0xB7).toNat + 1, size)
  else if b < 0xF8 then pure (.list, 1, (b - 0xC0).toNat)
  else do
    let size ← readSize (buf.drop 1) (b - 0xF7).toNat
    pure (.list, (b - 0xF7).toNat + 1, size)

def readKind (buf : Bytes) : Except (Fault Err) (Kind × ℕ × ℕ) :=
  match buf with
  | [] => .error (.err .unexpectedEOF)
  | b :: _ => do
    let (k, tagsize, contentsize) ← readTag b buf
    if buf.length - tagsize < contentsize then .error (.err .valueTooLarge)
    else pure (k, tagsize, contentsize)

def split (b : Bytes) : Except (Fault Err) (Kind × Bytes × Bytes) := do
  let (k, ts, cs) ← readKind b
  let content ← slice b ts (ts + cs)
  let rest ← suffix b (ts + cs)
  pure (k, content, rest)

def splitString (b : Bytes) : Except (Fault Err) (Bytes × Bytes) := do
  let (k, content, rest) ← split b
  if k = .list then .error (.err .expectedString) else pure (content, rest)

def splitList (b : Bytes) : Except (Fault Err) (Bytes × Bytes) := do
  let (k, content, rest) ← split b
  if k ≠ .list then .error (.err .expectedList) else pure (content, rest)

/-- The loop of `CountValues`.  Every value takes a byte, so the length of the buffer bounds it. -/
def countFrom : ℕ → ℕ → Bytes → Except (Fault Err) ℕ
  | _, i, [] => pure i
  | 0, i, _ => pure i
  | fuel + 1, i, b :: bs => do
    let (_, tagsize, size) ← readKind (b :: bs)
    let rest ← suffix (b :: bs) (tagsize + size)
    countFrom fuel (i + 1) rest

def countValues (b : Bytes) : Except (Fault Err) ℕ := countFrom b.length 0 b

/-! ## What a read tag says about the buffer -/

variable {b buf rest : Bytes} {k : Kind} {ts cs n : ℕ}

theorem readSize_eq_ok {slen : ℕ} : readSize b slen = .ok n ↔
      slen ≤ b.length ∧ 56 ≤ n ∧ b.head? ≠ some 0 ∧ n = value (b.take slen) := by
  unfold readSize
  rcases Nat.lt_or_ge b.length slen with short | enough
  · rw [if_pos short]
    exact ⟨nofun, fun h => absurd h.1 (Nat.not_le.2 short)⟩
  rw [if_neg (Nat.not_lt.2 enough)]
  rcases Nat.lt_or_ge (value (b.take slen)) 56 with small | large
  · rw [if_pos small]
    refine ⟨nofun, fun ⟨_, h, _, hn⟩ => ?_⟩
    omega
  rw [if_neg (Nat.not_lt.2 large)]
  cases b with
  | nil => simp at large
  | cons first bs =>
    change (if first = 0 then .error (.err .canonSize)
      else .ok (value ((first :: bs).take slen)) : Except (Fault Err) ℕ) = .ok n ↔ _
    by_cases hz : first = 0
    · simp [hz]
    · rw [if_neg hz]
      simp only [Except.ok.injEq, head?_cons, ne_eq, Option.some.injEq, hz, not_false_eq_true,
        true_and]
      exact ⟨fun h => ⟨enough, h ▸ large, h.symm⟩, fun h => h.2.2.symm⟩

theorem returns_readSize (b : Bytes) (slen : ℕ) : Returns (readSize b slen) := by
  unfold readSize
  split_ifs with short small
  · exact returns_err _
  · exact returns_err _
  · cases b with
    | nil => simp at small
    | cons first bs =>
      exact returns_bind.2 ⟨returns_ok first, fun a _ => returns_ite _ _⟩

theorem returns_readTag_iff :
    Returns (readTag first (first :: rest)) ↔ ¬ (first = 0x81 ∧ rest = []) := by
  have one : first = 0x81 → ¬ first < 0x80 ∧ first < 0xB8 ∧ (first - 0x80).toNat = 1 := by
    rintro rfl
    decide
  have tag : ¬ first < 0x80 → first < 0xB8 → (first - 0x80).toNat = 1 → first = 0x81 := by
    have checked : ∀ n : Fin 256, ¬ UInt8.ofNat n < 0x80 → UInt8.ofNat n < 0xB8 →
        (UInt8.ofNat n - 0x80).toNat = 1 → UInt8.ofNat n = 0x81 := by decide +kernel
    have hf := checked ⟨first.toNat, first.toNat_lt⟩
    rwa [UInt8.ofNat_toNat] at hf
  unfold readTag
  split_ifs with h1 h2 h3 h4 h5
  · exact ⟨fun _ hf => (one hf.1).1 h1, fun _ => returns_ok _⟩
  · obtain rfl := tag h1 h2 h3
    cases rest with
    | nil => exact ⟨fun h => absurd rfl h, fun h => absurd ⟨rfl, rfl⟩ h⟩
    | cons c cs =>
      refine ⟨fun _ hf => List.cons_ne_nil c cs hf.2, fun _ => ?_⟩
      exact returns_bind.2 ⟨returns_ok c, fun a _ => returns_ite _ _⟩
  · exact ⟨fun _ hf => h3 (one hf.1).2.2, fun _ => returns_ok _⟩
  · refine ⟨fun _ hf => h2 (one hf.1).2.1, fun _ => ?_⟩
    exact returns_bind.2 ⟨returns_readSize _ _, fun a _ => returns_ok _⟩
  · exact ⟨fun _ hf => h2 (one hf.1).2.1, fun _ => returns_ok _⟩
  · refine ⟨fun _ hf => h2 (one hf.1).2.1, fun _ => ?_⟩
    exact returns_bind.2 ⟨returns_readSize _ _, fun a _ => returns_ok _⟩

theorem returns_readKind_iff : Returns (readKind buf) ↔ buf ≠ [0x81] := by
  cases buf with
  | nil => simp [readKind]
  | cons first rest =>
    have tag : Returns (readKind (first :: rest)) ↔ Returns (readTag first (first :: rest)) :=
      ⟨fun h => (returns_bind.1 h).1, fun h => returns_bind.2 ⟨h, fun t _ => returns_ite _ _⟩⟩
    rw [tag, returns_readTag_iff, ne_eq, cons.injEq]

theorem readTag_eq_ok (h : readTag first buf = .ok (k, ts, cs)) :
    (0 < cs ∨ ts = 1) ∧ (k = .list → 0 < ts) := by
  unfold readTag at h
  split_ifs at h with h1 h2 h3 h4 h5
  · cases h
    exact ⟨.inl Nat.one_pos, nofun⟩
  · obtain ⟨content, -, h⟩ := bind_eq_ok.1 h
    split_ifs at h
    cases h
    exact ⟨.inr rfl, nofun⟩
  · cases h
    exact ⟨.inr rfl, nofun⟩
  · obtain ⟨size, hs, h⟩ := bind_eq_ok.1 h
    cases h
    exact ⟨.inl (by have := (readSize_eq_ok.1 hs).2.1; omega), nofun⟩
  · cases h
    exact ⟨.inr rfl, fun _ => Nat.one_pos⟩
  · obtain ⟨size, hs, h⟩ := bind_eq_ok.1 h
    cases h
    exact ⟨.inl (by have := (readSize_eq_ok.1 hs).2.1; omega), fun _ => Nat.succ_pos _⟩

theorem readKind_eq_ok (h : readKind (first :: rest) = .ok (k, ts, cs)) :
    readTag first (first :: rest) = .ok (k, ts, cs) ∧ cs ≤ (first :: rest).length - ts := by
  obtain ⟨⟨k', ts', cs'⟩, ht, h⟩ := bind_eq_ok.1 h
  dsimp only at h
  split_ifs at h with large
  cases h
  exact ⟨ht, Nat.not_lt.1 large⟩

theorem readKind_le (h : readKind buf = .ok (k, ts, cs)) : ts + cs ≤ buf.length ∧ 0 < ts + cs := by
  cases buf with
  | nil => exact nomatch h
  | cons first rest =>
    obtain ⟨ht, le⟩ := readKind_eq_ok h
    have tag := (readTag_eq_ok ht).1
    have : 0 < (first :: rest).length := Nat.succ_pos _
    omega

theorem length_drop_lt (h : readKind buf = .ok (k, ts, cs)) :
    (buf.drop (ts + cs)).length < buf.length := by
  have := readKind_le h
  rw [length_drop]
  omega

theorem split_eq : split b = (readKind b).map fun t =>
    (t.1, (b.take (t.2.1 + t.2.2)).drop t.2.1, b.drop (t.2.1 + t.2.2)) := by
  unfold split
  rcases hk : readKind b with e | ⟨k, ts, cs⟩
  · rfl
  · have le := (readKind_le hk).1
    change (do
      let content ← slice b ts (ts + cs)
      let rest ← suffix b (ts + cs)
      pure (k, content, rest) : Except (Fault Err) _) = _
    rw [slice_of_le (Nat.le_add_right ts cs) le, suffix_of_le le]
    rfl

theorem split_eq_ok : split b = .ok (k, content, rest) ↔
    ∃ ts cs, readKind b = .ok (k, ts, cs) ∧ content = (b.take (ts + cs)).drop ts ∧
      rest = b.drop (ts + cs) := by
  rw [split_eq]
  rcases readKind b with e | ⟨k', ts, cs⟩
  · exact ⟨nofun, fun ⟨_, _, h, _⟩ => nomatch h⟩
  · constructor
    · intro h
      cases h
      exact ⟨ts, cs, rfl, rfl, rfl⟩
    · rintro ⟨ts', cs', h, rfl, rfl⟩
      cases h
      rfl

theorem returns_split_iff : Returns (split b) ↔ b ≠ [0x81] := by
  rw [split_eq, returns_map, returns_readKind_iff]

theorem splitString_eq_ok :
    splitString b = .ok (content, rest) ↔ ∃ k, k ≠ .list ∧ split b = .ok (k, content, rest) := by
  unfold splitString
  rcases split b with e | ⟨k, c, r⟩
  · exact ⟨nofun, fun ⟨_, _, h⟩ => nomatch h⟩
  · change (if k = .list then .error (.err .expectedString) else .ok (c, r) :
      Except (Fault Err) _) = _ ↔ _
    cases k <;> simp

theorem splitList_eq_ok : splitList b = .ok (content, rest) ↔ split b = .ok (.list, content, rest) := by
  unfold splitList
  rcases split b with e | ⟨k, c, r⟩
  · exact ⟨nofun, nofun⟩
  · change (if k ≠ .list then .error (.err .expectedList) else .ok (c, r) :
      Except (Fault Err) _) = _ ↔ _
    cases k <;> simp

theorem returns_splitString_iff : Returns (splitString b) ↔ b ≠ [0x81] := by
  rw [← returns_split_iff]
  exact ⟨fun h => (returns_bind.1 h).1, fun h => returns_bind.2 ⟨h, fun t _ => returns_ite _ _⟩⟩

theorem returns_splitList_iff : Returns (splitList b) ↔ b ≠ [0x81] := by
  rw [← returns_split_iff]
  exact ⟨fun h => (returns_bind.1 h).1, fun h => returns_bind.2 ⟨h, fun t _ => returns_ite _ _⟩⟩

theorem length_rest_lt (h : split b = .ok (k, content, rest)) : rest.length < b.length := by
  obtain ⟨ts, cs, hk, -, rfl⟩ := split_eq_ok.1 h
  exact length_drop_lt hk

theorem length_content_lt (h : split b = .ok (.list, content, rest)) : content.length < b.length := by
  obtain ⟨ts, cs, hk, rfl, -⟩ := split_eq_ok.1 h
  cases b with
  | nil => exact nomatch hk
  | cons first bs =>
    have pos := (readTag_eq_ok (readKind_eq_ok hk).1).2 rfl
    rw [length_drop, length_take]
    have : 0 < (first :: bs).length := Nat.succ_pos _
    omega

/-! ## Counting values -/

theorem countFrom_eq {fuel fuel' i : ℕ} {b : Bytes} (h : b.length ≤ fuel) (h' : b.length ≤ fuel') :
    countFrom fuel i b = countFrom fuel' i b := by
  induction fuel generalizing fuel' i b with
  | zero =>
    obtain rfl := length_eq_zero_iff.1 (Nat.le_zero.1 h)
    cases fuel' <;> rfl
  | succ fuel ih =>
    cases b with
    | nil => cases fuel' <;> rfl
    | cons first bs =>
      obtain ⟨fuel', rfl⟩ : ∃ n, fuel' = n + 1 := Nat.exists_eq_succ_of_ne_zero (by
        rintro rfl
        simp at h')
      unfold countFrom
      rcases hk : readKind (first :: bs) with e | ⟨k, ts, cs⟩
      · rfl
      · have le := readKind_le hk
        change (suffix (first :: bs) (ts + cs) >>= countFrom fuel (i + 1)) =
          (suffix (first :: bs) (ts + cs) >>= countFrom fuel' (i + 1))
        rw [suffix_of_le le.1]
        refine ih ?_ ?_ <;> rw [length_drop] <;> rw [length_cons] at * <;> omega

theorem countFrom_cons (i : ℕ) (first : UInt8) (bs : Bytes) :
    countFrom (first :: bs).length i (first :: bs) = readKind (first :: bs) >>= fun t =>
      countFrom ((first :: bs).drop (t.2.1 + t.2.2)).length (i + 1)
        ((first :: bs).drop (t.2.1 + t.2.2)) := by
  rw [length_cons, countFrom]
  rcases hk : readKind (first :: bs) with e | ⟨k, ts, cs⟩
  · rfl
  · have le := readKind_le hk
    change (suffix (first :: bs) (ts + cs) >>= countFrom bs.length (i + 1)) = _
    rw [suffix_of_le le.1]
    refine countFrom_eq ?_ le_rfl
    rw [length_drop, length_cons]
    omega

/-- Whole values up to a last byte `0x81` that has no content. -/
inductive Dangling : Bytes → Prop where
  | last : Dangling [0x81]
  | value {b : Bytes} {k : Kind} {ts cs : ℕ} (hk : readKind b = .ok (k, ts, cs))
      (rest : Dangling (b.drop (ts + cs))) : Dangling b

theorem Dangling.of_rest (h : split b = .ok (k, content, rest)) (hd : Dangling rest) : Dangling b := by
  obtain ⟨ts, cs, hk, -, rfl⟩ := split_eq_ok.1 h
  exact .value hk hd

theorem returns_countFrom_iff (i : ℕ) (b : Bytes) :
    Returns (countFrom b.length i b) ↔ ¬ Dangling b := by
  induction hn : b.length using Nat.strong_induction_on generalizing i b with
  | _ n ih =>
    subst hn
    cases b with
    | nil =>
      refine ⟨fun _ h => ?_, fun _ => returns_ok i⟩
      cases h with
      | value hk => exact nomatch hk
    | cons first bs =>
      rw [countFrom_cons, returns_bind, returns_readKind_iff]
      constructor
      · rintro ⟨here, next⟩ h
        cases h with
        | last => exact here rfl
        | @value _ k ts cs hk rest =>
          exact (ih _ (length_drop_lt hk) (i + 1) _ rfl).1 (next _ hk) rest
      · intro h
        refine ⟨fun here => h (here ▸ .last), fun t ht => ?_⟩
        exact (ih _ (length_drop_lt ht) (i + 1) _ rfl).2 fun rest => h (.value ht rest)

theorem returns_countValues_iff : Returns (countValues b) ↔ ¬ Dangling b :=
  returns_countFrom_iff 0 b

end JuChain.Rlp
