import Mathlib
import JuChain.Core.Types
import JuChain.Lib.Hex

/-!
# Hexadecimal values in JSON

`common/hexutil`: the texts of byte strings and numbers, and their parsers.  Only integers from zero
to `2 ^ 256 - 1` come back (`unmarshalBig_marshalBig_iff`).
-/

namespace JuChain.Hexutil

open List Option Hex

variable {ds : List ℕ}

/-- `wrongLength` is the error of `UnmarshalFixedText`: the length, the one wanted and the type. -/
inductive Err where
  | missingPrefix
  | oddLength
  | emptyNumber
  | leadingZero
  | badSyntax
  | uint64Range
  | big256Range
  | wrongLength (got want : ℕ) (typname : String)
  deriving DecidableEq

/-- The bytes of `0x`. -/
def ox : Bytes := [48, 120]

/-- `has0xPrefix`. -/
def has0x : Bytes → Bool
  | a :: b :: _ => a = 48 ∧ (b = 120 ∨ b = 88)
  | _ => false

def checkText (input : Bytes) (wantPrefix : Bool) : Except Err Bytes :=
  if input = [] then .ok []
  else if has0x input = false ∧ wantPrefix then .error .missingPrefix
  else
    let digits := if has0x input then input.drop 2 else input
    if digits.length % 2 ≠ 0 then .error .oddLength else .ok digits

def checkNumberText (input : Bytes) : Except Err Bytes :=
  if input = [] then .ok []
  else if has0x input = false then .error .missingPrefix
  else
    let digits := input.drop 2
    if digits = [] then .error .emptyNumber
    else if 1 < digits.length ∧ digits.head? = some 48 then .error .leadingZero
    else .ok digits

/-- All characters are hexadecimal digits. -/
def AllDigits (raw : Bytes) : Prop := ∀ c ∈ raw, value c ≠ none

instance decidableAllDigits (raw : Bytes) : Decidable (AllDigits raw) :=
  inferInstanceAs (Decidable (∀ c ∈ raw, _))

/-- `hex.Decode`. -/
def decodeHex (raw : Bytes) : Except Err Bytes :=
  if AllDigits raw then .ok (decode raw) else .error .badSyntax

/-- `Bytes.MarshalText`. -/
def marshalBytes (b : Bytes) : Bytes := ox ++ encode b

/-- `Bytes.UnmarshalText`. -/
def unmarshalBytes (input : Bytes) : Except Err Bytes := (checkText input true).bind decodeHex

/-- `UnmarshalFixedText`. -/
def unmarshalFixed (typname : String) (n : ℕ) (input : Bytes) : Except Err Bytes :=
  (checkText input true).bind fun raw =>
    if raw.length / 2 ≠ n then .error (.wrongLength raw.length (n * 2) typname) else decodeHex raw

/-- The digits of a number in base 16, as `strconv.AppendUint` writes them. -/
def digits (n : ℕ) : Bytes := if n = 0 then [48] else (Nat.digits 16 n).reverse.map digit

/-- One digit of a number. -/
def readDigit (w : UInt64) (c : UInt8) : Except Err UInt64 :=
  match value c with
  | none => .error .badSyntax
  | some n => .ok (w * 16 + UInt64.ofNat n)

/-- The digits of one word. -/
def readWord (raw : Bytes) : Except Err UInt64 := raw.foldlM readDigit 0

/-- `Uint64.MarshalText`. -/
def marshalUint64 (i : UInt64) : Bytes := ox ++ digits i.toNat

/-- `Uint64.UnmarshalText`. -/
def unmarshalUint64 (input : Bytes) : Except Err UInt64 :=
  (checkNumberText input).bind fun raw => if 16 < raw.length then .error .uint64Range else readWord raw

/-- `Big.MarshalText`: the sign stands before `0x`. -/
def marshalBig (i : ℤ) : Bytes := if i < 0 then 45 :: (ox ++ digits i.natAbs) else ox ++ digits i.natAbs

/-- The loop of `Big.UnmarshalText`: words of 16 digits from the end. -/
def readWords : ℕ → Bytes → Except Err (List UInt64)
  | 0, _ => .ok []
  | n + 1, raw =>
    (readWord (raw.drop (raw.length - 16))).bind fun w =>
      (readWords n (raw.take (raw.length - 16))).map (w :: ·)

/-- `big.Int.SetBits`. -/
def setBits (words : List UInt64) : ℤ := words.foldr (fun w n => w.toNat + 2 ^ 64 * n) 0

/-- `Big.UnmarshalText`. -/
def unmarshalBig (input : Bytes) : Except Err ℤ :=
  (checkNumberText input).bind fun raw =>
    if 64 < raw.length then .error .big256Range else (readWords (raw.length / 16 + 1) raw).map setBits

/-! ## Byte strings -/

theorem has0x_ox (rest : Bytes) : has0x (ox ++ rest) = true := rfl

theorem checkText_ox {raw : Bytes} (even : raw.length % 2 = 0) :
    checkText (ox ++ raw) true = .ok raw := by
  have drop : (ox ++ raw).drop 2 = raw := rfl
  rw [checkText, if_neg (by simp [ox]), if_neg (by simp [has0x_ox]), has0x_ox]
  simp only [if_true, drop]
  rw [if_neg (not_not.2 even)]

theorem length_encode (b : Bytes) : (encode b).length = 2 * b.length := by
  induction b with
  | nil => rfl
  | cons x b ih =>
    simp only [encode, length_cons, ih]
    omega

theorem allDigits_encode (b : Bytes) : AllDigits (encode b) := by
  induction b with
  | nil => exact nofun
  | cons x b ih =>
    have hx := x.toNat_lt
    intro c hc
    rw [encode, mem_cons, mem_cons] at hc
    rcases hc with rfl | rfl | hc
    · rw [value_digit (by omega)]
      exact some_ne_none _
    · rw [value_digit (Nat.mod_lt _ (by norm_num))]
      exact some_ne_none _
    · exact ih c hc

theorem decodeHex_encode (b : Bytes) : decodeHex (encode b) = .ok b := by
  rw [decodeHex, if_pos (allDigits_encode b), decode_encode]

theorem checkText_marshalBytes (b : Bytes) : checkText (marshalBytes b) true = .ok (encode b) :=
  checkText_ox (by rw [length_encode]; exact Nat.mul_mod_right 2 _)

theorem unmarshalBytes_marshalBytes (b : Bytes) : unmarshalBytes (marshalBytes b) = .ok b := by
  rw [unmarshalBytes, checkText_marshalBytes]
  exact decodeHex_encode b

theorem unmarshalFixed_marshalBytes (typname : String) (b : Bytes) :
    unmarshalFixed typname b.length (marshalBytes b) = .ok b := by
  have len : (encode b).length / 2 = b.length := by
    rw [length_encode]
    omega
  rw [unmarshalFixed, checkText_marshalBytes]
  simp only [Except.bind, len, ne_eq, not_true_eq_false, if_false, decodeHex_encode]

/-! ## Numbers -/

/-- The value of digits, the highest first. -/
def number (ds : List ℕ) : ℕ := ds.foldl (fun n d => n * 16 + d) 0

@[simp] theorem number_concat (ds : List ℕ) (d : ℕ) : number (ds ++ [d]) = number ds * 16 + d := by
  simp [number]

theorem number_append (a b : List ℕ) : number (a ++ b) = number a * 16 ^ b.length + number b := by
  induction b using reverseRecOn with
  | nil => simp [number]
  | append_singleton b d ih =>
    rw [← append_assoc, number_concat, number_concat, ih, length_append, length_singleton, pow_succ]
    ring

theorem number_lt (h : ∀ d ∈ ds, d < 16) : number ds < 16 ^ ds.length := by
  induction ds using reverseRecOn with
  | nil => simp [number]
  | append_singleton ds d ih =>
    have hd := h d (by simp)
    have := ih fun x hx => h x (mem_append_left _ hx)
    rw [number_concat, length_append, length_singleton, pow_succ]
    omega

theorem number_reverse_digits (n : ℕ) : number (Nat.digits 16 n).reverse = n := by
  induction n using Nat.strong_induction_on with
  | _ n ih =>
    rcases Nat.eq_zero_or_pos n with rfl | pos
    · simp [number]
    · rw [Nat.digits_def' (by norm_num) pos, reverse_cons, number_concat,
        ih (n / 16) (Nat.div_lt_self pos (by norm_num))]
      omega

theorem readWord_map (h : ∀ d ∈ ds, d < 16) :
    readWord (ds.map digit) = .ok (UInt64.ofNat (number ds)) := by
  induction ds using reverseRecOn with
  | nil => rfl
  | append_singleton ds d ih =>
    have := ih fun x hx => h x (mem_append_left _ hx)
    rw [readWord] at this
    rw [readWord, map_append, foldlM_append, this, number_concat]
    change (readDigit _ _ >>= pure) = _
    rw [bind_pure, readDigit, value_digit (h d (by simp))]
    simp

/-- The digits of a number, the highest first. -/
def spelling (n : ℕ) : List ℕ := if n = 0 then [0] else (Nat.digits 16 n).reverse

theorem digits_eq (n : ℕ) : digits n = (spelling n).map digit := by
  unfold digits spelling
  split_ifs <;> rfl

theorem spelling_lt (n : ℕ) : ∀ d ∈ spelling n, d < 16 := by
  intro d hd
  unfold spelling at hd
  split_ifs at hd
  · simp_all
  · exact Nat.digits_lt_base (by norm_num) (mem_reverse.1 hd)

theorem number_spelling (n : ℕ) : number (spelling n) = n := by
  unfold spelling
  split_ifs with zero
  · subst zero
    rfl
  · exact number_reverse_digits n

variable {n k : ℕ}

theorem length_spelling_le (hk : 0 < k) : (spelling n).length ≤ k ↔ n < 16 ^ k := by
  unfold spelling
  split_ifs with zero
  · subst zero
    exact iff_of_true hk (Nat.pow_pos (by norm_num))
  · rw [length_reverse]
    exact Nat.digits_length_le_iff (by norm_num) n

theorem spelling_ne_nil (n : ℕ) : spelling n ≠ [] := by
  unfold spelling
  split_ifs with zero
  · exact cons_ne_nil _ _
  · simpa [Nat.digits_eq_nil_iff_eq_zero] using zero

theorem head_spelling (h : 1 < (spelling n).length) : (spelling n).head? ≠ some 0 := by
  unfold spelling at h ⊢
  split_ifs at h ⊢ with zero
  · simp at h
  · intro head
    rw [head?_reverse] at head
    have ne : Nat.digits 16 n ≠ [] := fun hnil => by simp [hnil] at h
    rw [getLast?_eq_some_getLast ne, some.injEq] at head
    exact Nat.getLast_digit_ne_zero 16 zero head

theorem checkNumberText_digits (n : ℕ) : checkNumberText (ox ++ digits n) = .ok (digits n) := by
  have drop : (ox ++ digits n).drop 2 = digits n := rfl
  rw [checkNumberText, if_neg (by simp [ox]), if_neg (by rw [has0x_ox]; decide), drop]
  rw [if_neg (by rw [digits_eq]; simpa using spelling_ne_nil n), if_neg]
  rintro ⟨long, head⟩
  rw [digits_eq, length_map] at long
  rw [digits_eq, head?_map, map_eq_some_iff] at head
  obtain ⟨d, hd, hzero⟩ := head
  have lt : d < 16 := spelling_lt n d (mem_of_head? hd)
  have := value_digit lt
  rw [hzero] at this
  have dz : d = 0 := some.inj this.symm
  exact head_spelling long (dz ▸ hd)

theorem length_digits_le (hk : 0 < k) : (digits n).length ≤ k ↔ n < 16 ^ k := by
  rw [digits_eq, length_map, length_spelling_le hk]

theorem unmarshalUint64_marshalUint64 (i : UInt64) : unmarshalUint64 (marshalUint64 i) = .ok i := by
  have short : (digits i.toNat).length ≤ 16 := (length_digits_le (by norm_num)).2 i.toNat_lt
  rw [unmarshalUint64, marshalUint64, checkNumberText_digits]
  simp only [Except.bind]
  rw [if_neg (not_lt.2 short), digits_eq, readWord_map (spelling_lt _), number_spelling,
    UInt64.ofNat_toNat]

theorem readWords_map (h : ∀ d ∈ ds, d < 16) (len : ds.length ≤ 16 * n) :
    (readWords n (ds.map digit)).map setBits = .ok (number ds : ℤ) := by
  induction n generalizing ds with
  | zero =>
    obtain rfl : ds = [] := eq_nil_of_length_eq_zero (by omega)
    rfl
  | succ n ih =>
    -- the last sixteen digits are one word, the others are read in the rounds that follow
    have low : ∀ d ∈ ds.drop (ds.length - 16), d < 16 := fun d hd => h d (mem_of_mem_drop hd)
    have high : ∀ d ∈ ds.take (ds.length - 16), d < 16 := fun d hd => h d (mem_of_mem_take hd)
    have rest := ih high (by rw [length_take]; omega)
    have fits : number (ds.drop (ds.length - 16)) < 2 ^ 64 := by
      refine lt_of_lt_of_le (number_lt low) ?_
      rw [show 2 ^ 64 = 16 ^ 16 by norm_num]
      exact Nat.pow_le_pow_right (by norm_num) (by rw [length_drop]; omega)
    rw [readWords, length_map, ← map_drop, ← map_take, readWord_map low]
    cases hw : readWords n ((ds.take (ds.length - 16)).map digit) with
    | error e => rw [hw] at rest; cases rest
    | ok ws =>
      rw [hw] at rest
      have total : setBits ws = number (ds.take (ds.length - 16)) := Except.ok.inj rest
      simp only [Except.bind, Except.map, setBits, foldr_cons] at total ⊢
      rw [total, UInt64.toNat_ofNat', Nat.mod_eq_of_lt fits, Except.ok.injEq]
      conv_rhs => rw [← take_append_drop (ds.length - 16) ds, number_append]
      rcases Nat.lt_or_ge ds.length 16 with short | long
      · have none : ds.length - 16 = 0 := by omega
        simp [none, number]
      · have whole : (ds.drop (ds.length - 16)).length = 16 := by rw [length_drop]; omega
        rw [whole]
        push_cast
        ring

theorem unmarshalBig_digits (h : n < 2 ^ 256) : unmarshalBig (ox ++ digits n) = .ok (n : ℤ) := by
  have short : (digits n).length ≤ 64 :=
    (length_digits_le (by norm_num)).2 (lt_of_lt_of_eq h (by norm_num))
  rw [unmarshalBig, checkNumberText_digits]
  simp only [Except.bind]
  rw [if_neg (not_lt.2 short), digits_eq, readWords_map (spelling_lt n), number_spelling]
  rw [length_map]
  omega

theorem unmarshalBig_marshalBig_iff (i : ℤ) :
    (unmarshalBig (marshalBig i) = .ok i ↔ 0 ≤ i ∧ i < 2 ^ 256) ∧
      (¬ (0 ≤ i ∧ i < 2 ^ 256) → ∃ e, unmarshalBig (marshalBig i) = .error e) := by
  unfold marshalBig
  split_ifs with neg
  · exact ⟨⟨nofun, fun h => absurd h.1 (not_le.2 neg)⟩, fun _ => ⟨_, rfl⟩⟩
  · have nonneg : (i.natAbs : ℤ) = i := by omega
    by_cases range : i.natAbs < 2 ^ 256
    · rw [unmarshalBig_digits range, nonneg]
      have inside : 0 ≤ i ∧ i < 2 ^ 256 := by omega
      exact ⟨iff_of_true rfl inside, fun h => absurd inside h⟩
    · have long : 64 < (digits i.natAbs).length := by
        rw [← not_le, length_digits_le (by norm_num)]
        exact range
      have fails : unmarshalBig (ox ++ digits i.natAbs) = .error .big256Range := by
        rw [unmarshalBig, checkNumberText_digits]
        exact if_pos long
      rw [fails]
      exact ⟨⟨nofun, fun h => absurd h.2 (by omega)⟩, fun _ => ⟨_, rfl⟩⟩

end JuChain.Hexutil
