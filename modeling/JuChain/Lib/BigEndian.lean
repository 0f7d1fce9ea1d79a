import Mathlib

/-!
# Big-endian numbers

Numbers as byte strings, the most significant byte first: the shortest form, which has no leading
zero byte, and the form of a fixed width.
-/

namespace BigEndian

open List

/-- The number that the bytes spell. -/
def value (bs : List UInt8) : ℕ := bs.foldl (fun n b => 256 * n + b.toNat) 0

/-- The shortest byte string of a number.  Zero is the empty string. -/
def minimal (n : ℕ) : List UInt8 := (Nat.digits 256 n).reverse.map UInt8.ofNat

/-- A number in `w` bytes. -/
def fixed : ℕ → ℕ → List UInt8
  | 0, _ => []
  | w + 1, n => fixed w (n / 256) ++ [UInt8.ofNat (n % 256)]

@[simp] theorem value_nil : value [] = 0 := rfl

@[simp] theorem value_concat (bs : List UInt8) (b : UInt8) :
    value (bs ++ [b]) = 256 * value bs + b.toNat := by
  simp [value]

@[simp] theorem value_singleton (b : UInt8) : value [b] = b.toNat := by simp [value]

theorem value_lt (bs : List UInt8) : value bs < 256 ^ bs.length := by
  induction bs using reverseRecOn with
  | nil => simp
  | append_singleton bs b ih =>
    have hb := b.toNat_lt
    rw [value_concat, length_append, length_singleton, pow_succ]
    omega

theorem value_cons (b : UInt8) (bs : List UInt8) :
    value (b :: bs) = b.toNat * 256 ^ bs.length + value bs := by
  induction bs using reverseRecOn with
  | nil => simp
  | append_singleton bs c ih =>
    rw [← cons_append, value_concat, ih, value_concat, length_append, length_singleton,
      pow_succ]
    ring

theorem le_value_cons {b : UInt8} (hb : b ≠ 0) (bs : List UInt8) :
    256 ^ bs.length ≤ value (b :: bs) := by
  have pos : 1 ≤ b.toNat := by
    rcases Nat.eq_zero_or_pos b.toNat with h | h
    · exact absurd (UInt8.toNat_inj.1 (by simpa using h)) hb
    · exact h
  calc 256 ^ bs.length = 1 * 256 ^ bs.length := (one_mul _).symm
    _ ≤ b.toNat * 256 ^ bs.length := Nat.mul_le_mul_right _ pos
    _ ≤ value (b :: bs) := by rw [value_cons]; exact Nat.le_add_right _ _

@[simp] theorem minimal_zero : minimal 0 = [] := by simp [minimal]

theorem minimal_of_pos {n : ℕ} (h : 0 < n) :
    minimal n = minimal (n / 256) ++ [UInt8.ofNat (n % 256)] := by
  simp [minimal, Nat.digits_def' (by norm_num : 1 < 256) h]

theorem toNat_digit (n : ℕ) : (UInt8.ofNat (n % 256)).toNat = n % 256 := by
  rw [UInt8.toNat_ofNat']
  omega

@[simp] theorem value_minimal (n : ℕ) : value (minimal n) = n := by
  induction n using Nat.strong_induction_on with
  | _ n ih =>
    rcases Nat.eq_zero_or_pos n with rfl | pos
    · simp
    · rw [minimal_of_pos pos, value_concat, ih (n / 256) (by omega), toNat_digit]
      omega

theorem minimal_injective : Function.Injective minimal :=
  Function.LeftInverse.injective value_minimal

theorem minimal_value {bs : List UInt8} (h : bs.head? ≠ some 0) : minimal (value bs) = bs := by
  induction bs using reverseRecOn with
  | nil => simp
  | append_singleton bs b ih =>
    have hb := b.toNat_lt
    have pos : 0 < value (bs ++ [b]) := by
      rcases bs with _ | ⟨c, cs⟩
      · rw [nil_append, value_singleton]
        refine Nat.pos_of_ne_zero fun zero => h ?_
        rw [UInt8.toNat_inj.1 (show b.toNat = (0 : UInt8).toNat from zero)]
        rfl
      · have hc : c ≠ 0 := fun hc => h (by simp [hc])
        exact (Nat.pow_pos (by norm_num)).trans_le (le_value_cons hc (cs ++ [b]))
    have high : (256 * value bs + b.toNat) / 256 = value bs := by omega
    have low : (256 * value bs + b.toNat) % 256 = b.toNat := by omega
    rw [minimal_of_pos pos, value_concat, high, low, UInt8.ofNat_toNat, ih]
    intro hz
    refine h ?_
    rcases bs with _ | ⟨c, cs⟩
    · simp at hz
    · simpa using hz

theorem head_minimal (n : ℕ) : (minimal n).head? ≠ some 0 := by
  induction n using Nat.strong_induction_on with
  | _ n ih =>
    rcases Nat.eq_zero_or_pos n with rfl | pos
    · simp
    · rw [minimal_of_pos pos]
      rcases Nat.eq_zero_or_pos (n / 256) with hz | hpos
      · intro h
        rw [hz, minimal_zero, nil_append, head?_cons, Option.some.injEq] at h
        have hn : n % 256 = 0 := by rw [← toNat_digit, h]; rfl
        omega
      · rw [head?_append_of_ne_nil]
        · exact ih (n / 256) (by omega)
        · rw [minimal_of_pos hpos]
          exact append_ne_nil_of_right_ne_nil _ (cons_ne_nil _ _)

theorem length_minimal_le {n k : ℕ} : (minimal n).length ≤ k ↔ n < 256 ^ k := by
  constructor
  · intro h
    calc n = value (minimal n) := (value_minimal n).symm
      _ < 256 ^ (minimal n).length := value_lt _
      _ ≤ 256 ^ k := Nat.pow_le_pow_right (by norm_num) h
  · intro h
    by_contra long
    cases hm : minimal n with
    | nil => simp [hm] at long
    | cons b bs =>
      have hb : b ≠ 0 := fun hb => head_minimal n (by rw [hm, hb]; rfl)
      have low := le_value_cons hb bs
      rw [← hm, value_minimal] at low
      have hk : k ≤ bs.length := by
        rw [hm, length_cons] at long
        omega
      have := Nat.pow_le_pow_right (n := 256) (by norm_num) hk
      omega

theorem minimal_ne_nil {n : ℕ} (h : 0 < n) : minimal n ≠ [] := by
  rw [minimal_of_pos h]
  exact append_ne_nil_of_right_ne_nil _ (cons_ne_nil _ _)

@[simp] theorem length_fixed (w n : ℕ) : (fixed w n).length = w := by
  induction w generalizing n with
  | zero => rfl
  | succ w ih => simp [fixed, ih]

theorem value_fixed (w n : ℕ) : value (fixed w n) = n % 256 ^ w := by
  induction w generalizing n with
  | zero => simp [fixed, Nat.mod_one]
  | succ w ih =>
    rw [fixed, value_concat, ih, toNat_digit, pow_succ', Nat.mod_mul]
    omega

theorem fixed_value {w : ℕ} {bs : List UInt8} (h : bs.length = w) : fixed w (value bs) = bs := by
  induction bs using reverseRecOn generalizing w with
  | nil => rw [← h]; rfl
  | append_singleton bs b ih =>
    have hb := b.toNat_lt
    have high : (256 * value bs + b.toNat) / 256 = value bs := by omega
    have low : (256 * value bs + b.toNat) % 256 = b.toNat := by omega
    rw [length_append, length_singleton] at h
    rw [← h, fixed, value_concat, high, low, ih rfl, UInt8.ofNat_toNat]

theorem fixed_injOn {w m n : ℕ} (hm : m < 256 ^ w) (hn : n < 256 ^ w) (h : fixed w m = fixed w n) :
    m = n := by
  rw [← Nat.mod_eq_of_lt hm, ← Nat.mod_eq_of_lt hn, ← value_fixed, ← value_fixed, h]

theorem getElem?_fixed {w k : ℕ} (h : k < w) (n : ℕ) :
    (fixed w n)[w - 1 - k]? = some (UInt8.ofNat (n / 256 ^ k % 256)) := by
  induction w generalizing n k with
  | zero => omega
  | succ w ih =>
    cases k with
    | zero => simp [fixed]
    | succ k =>
      rw [fixed, getElem?_append_left (by simp; omega), show w + 1 - 1 - (k + 1) =
        w - 1 - k by omega, ih (by omega), Nat.div_div_eq_div_mul, pow_succ']

theorem testBit_digit (n k : ℕ) {j : ℕ} (h : j < 8) :
    (UInt8.ofNat (n / 256 ^ k % 256)).toNat.testBit j = n.testBit (j + 8 * k) := by
  rw [toNat_digit, show 256 = 2 ^ 8 from rfl, ← pow_mul, Nat.testBit_mod_two_pow,
    Nat.testBit_div_two_pow, decide_eq_true h, Bool.true_and]

end BigEndian
