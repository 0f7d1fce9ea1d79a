import JuChain.Core.Types
import JuChain.Lib.Slices

/-!
# Trie keys

`core/trie/encoding.go`.  A key in *hex* form has one entry a nibble and may end in the terminator
16; in *compact* form two nibbles share a byte and a flag in front says whether their number is odd
and whether the terminator was there.
-/

namespace JuChain.Trie

open Slices

/-- A nibble, or the terminator. -/
abbrev Nibble := Fin 17

def keybytesToHex (str : Bytes) : List Nibble :=
  str.flatMap (fun b => [Fin.ofNat 17 (b.toNat / 16), Fin.ofNat 17 (b.toNat % 16)]) ++ [16]

def hasTerm (s : List Nibble) : Bool := s.getLast? = some 16

/-- The flag is `base[0]`, which is not there when the compact key is empty. -/
def compactToHex {ε : Type} (compact : Bytes) : Except (Fault ε) (List Nibble) := do
  let base := (keybytesToHex compact).dropLast
  let flag ← index base 0
  let base := if 2 ≤ flag then base ++ [16] else base
  suffix base (2 - flag.val % 2)

theorem keybytesToHex_cons (b : UInt8) (bs : Bytes) : keybytesToHex (b :: bs) =
      Fin.ofNat 17 (b.toNat / 16) :: Fin.ofNat 17 (b.toNat % 16) :: keybytesToHex bs := rfl

theorem dropLast_keybytesToHex_cons (b : UInt8) (bs : Bytes) : (keybytesToHex (b :: bs)).dropLast =
      Fin.ofNat 17 (b.toNat / 16) :: Fin.ofNat 17 (b.toNat % 16) :: (keybytesToHex bs).dropLast := by
  have ne : keybytesToHex bs ≠ [] := List.append_ne_nil_of_right_ne_nil _ (List.cons_ne_nil _ _)
  rw [keybytesToHex_cons, List.dropLast_cons_of_ne_nil (List.cons_ne_nil _ _),
    List.dropLast_cons_of_ne_nil ne]

theorem returns_compactToHex_iff {ε : Type} {compact : Bytes} :
    Returns (compactToHex compact : Except (Fault ε) (List Nibble)) ↔ compact ≠ [] := by
  cases compact with
  | nil => exact ⟨fun h => absurd rfl h, fun h => absurd rfl h⟩
  | cons b bs =>
    refine ⟨fun _ => List.cons_ne_nil _ _, fun _ => ?_⟩
    rw [compactToHex, dropLast_keybytesToHex_cons]
    refine returns_bind.2 ⟨returns_ok _, fun flag _ => ?_⟩
    rw [suffix_of_le]
    · exact returns_ok _
    · split_ifs <;> simp only [List.length_cons, List.length_append] <;> omega

end JuChain.Trie
