import Mathlib.Data.List.Basic

/-!
# Hexadecimal text

Byte strings written as lower-case hexadecimal text and read back.  `encode` writes two digits a
byte; `decode` reads pairs of digits, of either case, until it meets something that is not one.
-/

namespace Hex

/-- The character of a digit. -/
def digit (d : ℕ) : UInt8 := if d < 10 then UInt8.ofNat (48 + d) else UInt8.ofNat (87 + d)

/-- The value of a character. -/
def value (c : UInt8) : Option ℕ :=
  if 48 ≤ c ∧ c ≤ 57 then some (c.toNat - 48)
  else if 97 ≤ c ∧ c ≤ 102 then some (c.toNat - 87)
  else if 65 ≤ c ∧ c ≤ 70 then some (c.toNat - 55)
  else none

/-- Two digits for each byte. -/
def encode : List UInt8 → List UInt8
  | [] => []
  | b :: bs => digit (b.toNat / 16) :: digit (b.toNat % 16) :: encode bs

/-- The bytes of the pairs of digits at the front of a text. -/
def decode : List UInt8 → List UInt8
  | c :: d :: cs =>
    match value c, value d with
    | some x, some y => UInt8.ofNat (16 * x + y) :: decode cs
    | _, _ => []
  | _ => []

theorem value_digit {d : ℕ} (h : d < 16) : value (digit d) = some d := by
  have checked : ∀ d : Fin 16, value (digit d) = some d.val := by decide
  exact checked ⟨d, h⟩

@[simp] theorem decode_encode (bs : List UInt8) : decode (encode bs) = bs := by
  induction bs with
  | nil => rfl
  | cons b bs ih =>
    have hb : b.toNat < 256 := b.toNat_lt
    have hv : 16 * (b.toNat / 16) + b.toNat % 16 = b.toNat := Nat.div_add_mod b.toNat 16
    simp only [encode, decode, value_digit (show b.toNat / 16 < 16 by omega),
      value_digit (show b.toNat % 16 < 16 by omega), hv, UInt8.ofNat_toNat, ih]

theorem encode_injective : Function.Injective encode :=
  Function.LeftInverse.injective decode_encode

@[simp] theorem encode_inj {bs cs : List UInt8} : encode bs = encode cs ↔ bs = cs :=
  encode_injective.eq_iff

@[simp] theorem encode_eq_nil {bs : List UInt8} : encode bs = [] ↔ bs = [] :=
  @encode_inj bs []

end Hex
