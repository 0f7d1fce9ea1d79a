import JuChain.Lib.BigEndian

/-!
# Recursive length prefix

Item trees of byte strings and lists, and their encoding: a single byte below `0x80` is itself;
everything else is a header with the length of the payload, and the payload.
-/

namespace RLP

open BigEndian List UInt8

/-- Strings and lists. -/
inductive Item where
  | str (bs : List UInt8)
  | list (xs : List Item)

/-- The header of `n` bytes; `short` and `long` are the first bytes of the kind. -/
def header (short long : UInt8) (n : ℕ) : List UInt8 :=
  if n < 56 then [short + UInt8.ofNat n]
  else (long + UInt8.ofNat (minimal n).length) :: minimal n

/-- A string that is its own encoding. -/
def Single (bs : List UInt8) : Prop := bs.length = 1 ∧ ∀ b ∈ bs, b < 0x80

instance decidableSingle (bs : List UInt8) : Decidable (Single bs) :=
  inferInstanceAs (Decidable (_ ∧ _))

/-- The encoding of a string. -/
def encodeString (bs : List UInt8) : List UInt8 :=
  if Single bs then bs else header 0x80 0xB7 bs.length ++ bs

/-- The encoding of a list. -/
def encodeList (payload : List UInt8) : List UInt8 := header 0xC0 0xF7 payload.length ++ payload

mutual

/-- The encoding of an item. -/
def Item.encode : Item → List UInt8
  | .str bs => encodeString bs
  | .list xs => encodeList (encodeAll xs)

/-- The encodings of items, one after the other. -/
def encodeAll : List Item → List UInt8
  | [] => []
  | x :: xs => x.encode ++ encodeAll xs

end

mutual

/-- Every string and every payload of a list is shorter than `n`. -/
def Item.Fits (n : ℕ) : Item → Prop
  | .str bs => bs.length < n
  | .list xs => (encodeAll xs).length < n ∧ AllFit n xs

/-- All items fit. -/
def AllFit (n : ℕ) : List Item → Prop
  | [] => True
  | x :: xs => x.Fits n ∧ AllFit n xs

end

@[elab_as_elim]
theorem Item.induct {P : Item → Prop} (str : ∀ bs, P (.str bs))
    (list : ∀ xs, (∀ x ∈ xs, P x) → P (.list xs)) (x : Item) : P x := by
  refine @Item.rec P (fun xs => ∀ x ∈ xs, P x) str list ?_ ?_ x
  · exact fun x hx => absurd hx not_mem_nil
  · intro y ys hy hys x hx
    rcases mem_cons.1 hx with rfl | hx
    · exact hy
    · exact hys x hx

variable {n l : ℕ} {x : Item} {bs : List UInt8} {xs : List Item}

theorem allFit_iff : AllFit n xs ↔ ∀ x ∈ xs, x.Fits n := by
  induction xs with
  | nil => simp [AllFit]
  | cons x xs ih => simp [AllFit, ih]

theorem Item.Fits.mono {m : ℕ} (h : m ≤ n) (fits : x.Fits m) : x.Fits n := by
  induction x using Item.induct with
  | str bs => exact Nat.lt_of_lt_of_le fits h
  | list xs ih =>
    refine ⟨Nat.lt_of_lt_of_le fits.1 h, allFit_iff.2 fun x hx => ?_⟩
    exact ih x hx (allFit_iff.1 fits.2 x hx)

theorem encodeAll_append (xs ys : List Item) : encodeAll (xs ++ ys) = encodeAll xs ++ encodeAll ys := by
  induction xs with
  | nil => rfl
  | cons x xs ih => simp [encodeAll, ih]

theorem header_short {short long : UInt8} (h : n < 56) : header short long n = [short + ofNat n] :=
  if_pos h

theorem header_long {short long : UInt8} (h : 56 ≤ n) :
    header short long n = (long + ofNat (minimal n).length) :: minimal n :=
  if_neg (Nat.not_lt.2 h)

theorem header_ne_nil (short long : UInt8) (n : ℕ) : header short long n ≠ [] := by
  unfold header
  split_ifs <;> simp

theorem length_header_pos (short long : UInt8) (n : ℕ) : 0 < (header short long n).length :=
  length_pos_iff.2 (header_ne_nil short long n)

theorem encode_ne_nil (x : Item) : x.encode ≠ [] := by
  cases x with
  | str bs =>
    rw [Item.encode, encodeString]
    split_ifs with h
    · exact ne_nil_of_length_pos (by rw [h.1]; norm_num)
    · exact append_ne_nil_of_left_ne_nil (header_ne_nil _ _ _) _
  | list xs =>
    exact append_ne_nil_of_left_ne_nil (header_ne_nil _ _ _) _

theorem length_encode_pos (x : Item) : 0 < x.encode.length :=
  length_pos_iff.2 (encode_ne_nil x)

theorem length_le_encodeAll (h : x ∈ xs) : x.encode.length ≤ (encodeAll xs).length := by
  induction xs with
  | nil => exact absurd h not_mem_nil
  | cons y ys ih =>
    rw [encodeAll, length_append]
    rcases mem_cons.1 h with rfl | h
    · exact Nat.le_add_right _ _
    · exact (ih h).trans (Nat.le_add_left _ _)

theorem Item.fits_of_encode (h : x.encode.length < n) : x.Fits n := by
  induction x using Item.induct with
  | str bs =>
    rw [Item.encode, encodeString] at h
    split_ifs at h
    · exact h
    · rw [length_append] at h
      exact Nat.lt_of_le_of_lt (Nat.le_add_left _ _) h
  | list xs ih =>
    rw [Item.encode, encodeList, length_append] at h
    refine ⟨by omega, allFit_iff.2 fun x hx => ih x hx ?_⟩
    have := length_le_encodeAll hx
    omega

theorem single_iff : Single bs ↔ ∃ b, bs = [b] ∧ b < 0x80 := by
  constructor
  · rintro ⟨one, small⟩
    obtain ⟨b, rfl⟩ := length_eq_one_iff.1 one
    exact ⟨b, rfl, small b (mem_singleton_self b)⟩
  · rintro ⟨b, rfl, h⟩
    exact ⟨rfl, fun c hc => by rwa [mem_singleton.1 hc]⟩

theorem encodeString_single {b : UInt8} (h : b < 0x80) : encodeString [b] = [b] :=
  if_pos (single_iff.2 ⟨b, rfl, h⟩)

theorem encodeString_of_not_single (h : ¬ Single bs) :
    encodeString bs = header 0x80 0xB7 bs.length ++ bs := if_neg h

/-! ## The five ranges of the first byte -/

theorem toNat_tag (base : UInt8) (h : base.toNat + n < 256) :
    (base + UInt8.ofNat n).toNat = base.toNat + n := by
  rw [UInt8.toNat_add, UInt8.toNat_ofNat', Nat.add_mod_mod]
  exact Nat.mod_eq_of_lt h

theorem tag_lt (base : UInt8) (h : base.toNat + n < 256) (c : UInt8) :
    base + ofNat n < c ↔ base.toNat + n < c.toNat := by
  rw [lt_iff_toNat_lt, toNat_tag base h]

theorem toNat_tag_sub (base : UInt8) (h : base.toNat + n < 256) :
    (base + UInt8.ofNat n - base).toNat = n := by
  rw [UInt8.toNat_sub, toNat_tag base h]
  omega

theorem eq_tag (base : UInt8) {b : UInt8} (h : b.toNat = base.toNat + n) :
    b = base + UInt8.ofNat n := by
  have := b.toNat_lt
  rw [← UInt8.toNat_inj, toNat_tag base (by omega), h]

theorem tag_cases (b : UInt8) : b < 0x80 ∨ (∃ n < 56, b = 0x80 + ofNat n) ∨
      (∃ l < 8, b = 0xB7 + ofNat (l + 1)) ∨ (∃ n < 56, b = 0xC0 + ofNat n) ∨
      ∃ l < 8, b = 0xF7 + ofNat (l + 1) := by
  have top := b.toNat_lt
  by_cases byte : b.toNat < 0x80
  · exact .inl (lt_iff_toNat_lt.2 byte)
  by_cases shortString : b.toNat < 0xB8
  · exact .inr (.inl ⟨b.toNat - 0x80, by omega, eq_tag 0x80 (by simp; omega)⟩)
  by_cases longString : b.toNat < 0xC0
  · exact .inr (.inr (.inl ⟨b.toNat - 0xB8, by omega, eq_tag 0xB7 (by simp; omega)⟩))
  by_cases shortList : b.toNat < 0xF8
  · exact .inr (.inr (.inr (.inl ⟨b.toNat - 0xC0, by omega, eq_tag 0xC0 (by simp; omega)⟩)))
  · exact .inr (.inr (.inr (.inr ⟨b.toNat - 0xF8, by omega, eq_tag 0xF7 (by simp; omega)⟩)))

theorem shortString_tag (h : n < 56) : ¬ 0x80 + ofNat n < 0x80 ∧ 0x80 + ofNat n < 0xB8 ∧
      (0x80 + ofNat n - 0x80).toNat = n := by
  have small : (0x80 : UInt8).toNat + n < 256 := by simp; omega
  simp only [tag_lt _ small, toNat_tag_sub _ small, reduceToNat, and_true]
  omega

theorem longString_tag (h : l < 8) : ¬ 0xB7 + ofNat (l + 1) < 0x80 ∧ ¬ 0xB7 + ofNat (l + 1) < 0xB8 ∧
      0xB7 + ofNat (l + 1) < 0xC0 ∧ (0xB7 + ofNat (l + 1) - 0xB7).toNat = l + 1 := by
  have small : (0xB7 : UInt8).toNat + (l + 1) < 256 := by simp; omega
  simp only [tag_lt _ small, toNat_tag_sub _ small, reduceToNat, and_true]
  omega

theorem shortList_tag (h : n < 56) : ¬ 0xC0 + ofNat n < 0x80 ∧ ¬ 0xC0 + ofNat n < 0xB8 ∧
      ¬ 0xC0 + ofNat n < 0xC0 ∧ 0xC0 + ofNat n < 0xF8 ∧ (0xC0 + ofNat n - 0xC0).toNat = n := by
  have small : (0xC0 : UInt8).toNat + n < 256 := by simp; omega
  simp only [tag_lt _ small, toNat_tag_sub _ small, reduceToNat, and_true]
  omega

theorem longList_tag (h : l < 8) : ¬ 0xF7 + ofNat (l + 1) < 0x80 ∧ ¬ 0xF7 + ofNat (l + 1) < 0xB8 ∧
      ¬ 0xF7 + ofNat (l + 1) < 0xC0 ∧ ¬ 0xF7 + ofNat (l + 1) < 0xF8 ∧
      (0xF7 + ofNat (l + 1) - 0xF7).toNat = l + 1 := by
  have small : (0xF7 : UInt8).toNat + (l + 1) < 256 := by simp; omega
  simp only [tag_lt _ small, toNat_tag_sub _ small, reduceToNat, and_true]
  omega

theorem length_minimal_of_fits (h : 56 ≤ n) (fits : n < 2 ^ 64) :
    ∃ l < 8, (minimal n).length = l + 1 := by
  have pos : 0 < (minimal n).length := length_pos_iff.2 (minimal_ne_nil (by omega))
  have le : (minimal n).length ≤ 8 := length_minimal_le.2 (by norm_num; omega)
  exact ⟨(minimal n).length - 1, by omega, by omega⟩

end RLP
