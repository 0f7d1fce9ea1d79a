import JuChain.Abi.Unpack

/-!
# How far decoding gets

A successful call says how far into the data it has got (`within_of_ok`), so that no sum of
positions wraps around.  `Yields` is a call that also reads nothing outside the slices it is given.
-/

namespace JuChain.Abi

open BigEndian Slices

variable {index n : ℕ} {elem t : Ty} {data output : View}

namespace Decode

variable {α β : Type} {m : Decode α} {f : α → Decode β} {a : α} {b : β}

theorem fail_ne_ok (e : UnpackError) (a : α) : (fail e : Decode α).result ≠ .ok a := nofun

theorem bind_ok : (m >>= f).result = .ok b ↔ ∃ a, m.result = .ok a ∧ (f a).result = .ok b := by
  obtain ⟨result, strayed⟩ := m
  cases result with
  | error e => exact iff_of_false nofun fun ⟨_, h, _⟩ => nomatch h
  | ok a => exact ⟨fun h => ⟨a, rfl, h⟩, fun ⟨_, h, h'⟩ => Except.ok.inj h ▸ h'⟩

/-- The call returns `a` and reads nothing outside its slices. -/
def Yields (m : Decode α) (a : α) : Prop := m = ⟨.ok a, false⟩

theorem Yields.bind (first : m.Yields a) (second : (f a).Yields b) : (m >>= f).Yields b := by
  subst first
  show (⟨(f a).result, false || (f a).strayed⟩ : Decode β) = _
  rw [second]
  rfl

theorem Yields.bind_eq (first : m.Yields a) : m >>= f = f a := by
  subst first
  show (⟨(f a).result, false || (f a).strayed⟩ : Decode β) = _
  rw [Bool.false_or]

theorem yields_pure (a : α) : Yields (pure a) a := rfl

end Decode

open Decode

theorem slice_yields (v : View) (lo hi : ℕ) (h : lo ≤ hi) (h' : hi ≤ v.bytes.length) :
    (v.slice lo hi).Yields ⟨(v.bytes.take hi).drop lo, v.bytes.drop hi ++ v.spare⟩ := by
  unfold View.slice Yields
  rw [if_pos (by omega), Int.toNat_natCast, Int.toNat_natCast, List.take_append_of_le_length h',
    List.drop_append_of_le_length h', decide_eq_false (by omega)]

/-- The view is one word. -/
def View.IsWord (word : View) : Prop := word.bytes.length = 32

theorem lastBytes_yields {word : View} (isWord : word.IsWord) {k : ℕ} (hk : k ≤ 32) :
    (lastBytes word k).Yields (value (word.bytes.drop (32 - k))) := by
  have tail := slice_yields word (32 - k) 32 (by omega) isWord.ge
  have bounds : word.slice (word.len - k) word.len = word.slice ((32 - k : ℕ) : ℤ) ((32 : ℕ) : ℤ) := by
    rw [View.len, isWord, Nat.cast_sub hk]
  unfold lastBytes
  rw [bounds, tail.bind_eq, List.take_of_length_le isWord.le]
  exact yields_pure _

/-! ## Positions -/

namespace Ty

/-- The words an argument of the type takes in the static part: arrays are laid out inline. -/
def words : Ty → ℕ
  | array size elem => size * elem.words
  | _ => 1

end Ty

theorem wrap_of_lt {x : ℤ} (h : 0 ≤ x) (h' : x < 2 ^ 63) : wrap x = x :=
  Int.bmod_eq_of_le (by norm_num; omega) (by norm_num; omega)

theorem wrap_natCast {m : ℕ} (h : m < 2 ^ 62) : wrap m = m :=
  wrap_of_lt (Int.natCast_nonneg _) (by norm_num; omega)

theorem wrap_mul_wrap (x y : ℤ) : wrap (wrap x * y) = wrap (x * y) := Int.bmod_mul_bmod

theorem fullElemSizeFrom_eq (size : ℤ) (elem : Ty) :
    fullElemSizeFrom (wrap size) elem = wrap (size * elem.words) := by
  induction elem generalizing size with
  | array n elem ih =>
    rw [fullElemSizeFrom, wrap_mul_wrap, ih, Ty.words, Nat.cast_mul, mul_assoc]
  | _ => simp [fullElemSizeFrom, Ty.words]

theorem getFullElemSize_eq (elem : Ty) : getFullElemSize elem = wrap (32 * elem.words) :=
  fullElemSizeFrom_eq 32 elem

theorem arraySizeFrom_eq (size : ℤ) (elem : Ty) :
    arraySizeFrom (wrap size) elem = wrap (size * elem.words) := by
  induction elem generalizing size with
  | array n elem ih =>
    rw [arraySizeFrom, wrap_mul_wrap, ih, Ty.words, Nat.cast_mul, mul_assoc]
  | _ => simp [arraySizeFrom, Ty.words]

/-- Memory is smaller than `2 ^ 62` bytes. -/
def View.Real (v : View) : Prop := v.bytes.length < 2 ^ 62

section Positions

variable {output : View} {decode : ℤ → Decode Value} {w i : ℕ} {v : Value} {memory : Option ℕ}

theorem View.Real.wrap_eq (real : output.Real) {m : ℕ} (h : m ≤ output.bytes.length) : wrap m = m :=
  wrap_natCast (h.trans_lt real)

theorem wrap_next (real : output.Real) (h : i + 32 * w ≤ output.bytes.length) :
    wrap (i + wrap (32 * w)) = ((i + 32 * w : ℕ) : ℤ) := by
  unfold View.Real at real
  rw [wrap_of_lt (x := 32 * w) (by positivity) (by omega), wrap_of_lt (by positivity) (by omega)]
  rfl

/-- What a loop that ends has read, element by element. -/
theorem eachFrom_get (real : output.Real)
    (each : ∀ i : ℕ, i ≤ output.bytes.length → ∀ v, (decode i).result = .ok v →
      i + 32 * max 1 w ≤ output.bytes.length) {vs : List Value} (start : i ≤ output.bytes.length)
    (ok : (eachFrom decode (wrap (32 * w)) n i).result = .ok vs) :
    i + 32 * (n * w) ≤ output.bytes.length ∧ vs.length = n ∧ ∀ k (h : k < vs.length),
      i + 32 * (k * w) ≤ output.bytes.length ∧
      (decode ((i + 32 * (k * w) : ℕ) : ℤ)).result = .ok (vs.get ⟨k, h⟩) := by
  induction n generalizing i vs with
  | zero =>
    obtain rfl := Except.ok.inj ok
    exact ⟨by omega, rfl, fun k h => absurd h (Nat.not_lt_zero k)⟩
  | succ n ih =>
    obtain ⟨v, first, rest⟩ := bind_ok.1 ok
    obtain ⟨vs', later, ok⟩ := bind_ok.1 rest
    obtain rfl := Except.ok.inj ok
    have here := each i start v first
    have next : i + 32 * w ≤ output.bytes.length := by
      omega
    rw [wrap_next real next] at later
    have position (k : ℕ) : i + 32 * ((k + 1) * w) = i + 32 * w + 32 * (k * w) := by ring
    obtain ⟨done, length, rest⟩ := ih next later
    refine ⟨by rwa [position], by rw [List.length_cons, length], fun k h => ?_⟩
    cases k with
    | zero =>
      rw [Nat.zero_mul, Nat.mul_zero, Nat.add_zero]
      exact ⟨start, first⟩
    | succ k =>
      rw [position]
      exact rest k (by simpa using h)

theorem word_slice (real : output.Real) (h : index + 32 ≤ output.bytes.length) :
    ∃ word : View, word.IsWord ∧ (output.slice index (wrap (index + 32))).Yields word := by
  have whole : wrap ((index : ℤ) + 32) = ((index + 32 : ℕ) : ℤ) := by exact_mod_cast real.wrap_eq h
  rw [whole]
  refine ⟨_, ?_, slice_yields output index (index + 32) (by omega) h⟩
  simp [View.IsWord]
  omega

theorem lengthPrefix_within {index begin length : ℤ}
    (ok : (lengthPrefixPointsTo index output).result = .ok (begin, length)) :
    0 ≤ begin ∧ 0 ≤ length ∧ begin + length ≤ output.bytes.length := by
  obtain ⟨word, -, ok⟩ := bind_ok.1 ok
  dsimp only at ok
  split_ifs at ok
  · exact (fail_ne_ok _ _ ok).elim
  · exact (fail_ne_ok _ _ ok).elim
  obtain ⟨lengthWord, -, ok⟩ := bind_ok.1 ok
  split_ifs at ok with large beyond
  · exact (fail_ne_ok _ _ ok).elim
  · exact (fail_ne_ok _ _ ok).elim
  obtain ⟨rfl, rfl⟩ := Prod.mk.inj (Except.ok.inj ok)
  rw [View.len] at beyond
  omega

theorem not_short_of_le (real : output.Real) (h : index + 32 ≤ output.bytes.length) :
    ¬ output.len < wrap ((index : ℤ) + 32) := by
  unfold View.Real at real
  rw [View.len, wrap_of_lt (by positivity) (by omega)]
  omega

theorem index_within (real : output.Real) (start : index ≤ output.bytes.length)
    (h : ¬ output.len < wrap ((index : ℤ) + 32)) : index + 32 ≤ output.bytes.length := by
  unfold View.Real at real
  rw [View.len, wrap_of_lt (by positivity) (by omega)] at h
  omega

theorem panic_ne_ok {α : Type} (a : α) : (panic : Decode α).result ≠ .ok a := nofun

/-- A loop that ends has been given room in the data and in memory. -/
theorem forEachUnpack_ok {start size elemSize : ℤ} {width : ℕ} {vs : List Value}
    (ok : (forEachUnpack decode output start size elemSize width memory).result = .ok vs) :
    ¬ output.len < wrap (start + wrap (32 * size)) ∧
      (eachFrom decode elemSize size.toNat start).result = .ok vs := by
  rw [forEachUnpack] at ok
  split_ifs at ok with negative boundary allocated
  · exact (fail_ne_ok _ _ ok).elim
  · exact (fail_ne_ok _ _ ok).elim
  · exact ⟨boundary, ok⟩
  · exact (panic_ne_ok _ ok).elim

theorem array_ok {index : ℤ} (ok : (toGoType (.array n elem) index output memory).result = .ok v) :
    ¬ output.len < wrap (index + wrap (32 * n)) ∧ ∃ vs, v = .array elem.kind vs ∧
      (eachFrom (fun i => toGoType elem i output memory) (wrap (32 * elem.words)) n index).result =
        .ok vs := by
  rw [toGoType] at ok
  split_ifs at ok
  · exact (fail_ne_ok _ _ ok).elim
  obtain ⟨-, -, ok⟩ := bind_ok.1 ok
  obtain ⟨vs, each, ok⟩ := bind_ok.1 ok
  obtain ⟨boundary, each⟩ := forEachUnpack_ok each
  rw [getFullElemSize_eq, Int.toNat_natCast] at each
  exact ⟨boundary, vs, (Except.ok.inj ok).symm, each⟩

theorem slice_ok {index : ℤ} (ok : (toGoType (.slice elem) index output memory).result = .ok v) :
    ∃ begin length vs, (lengthPrefixPointsTo index output).result = .ok (begin, length) ∧
      v = .slice elem.kind vs ∧
      (eachFrom (fun i => toGoType elem i output memory) 32 length.toNat begin).result = .ok vs := by
  rw [toGoType] at ok
  split_ifs at ok
  · exact (fail_ne_ok _ _ ok).elim
  obtain ⟨⟨begin, length⟩, pointer, ok⟩ := bind_ok.1 ok
  obtain ⟨vs, each, ok⟩ := bind_ok.1 ok
  exact ⟨begin, length, vs, pointer, (Except.ok.inj ok).symm, (forEachUnpack_ok each).2⟩

theorem not_short {index : ℤ} (ok : (toGoType t index output memory).result = .ok v) :
    ¬ output.len < wrap (index + 32) := by
  intro short
  rw [toGoType_short short] at ok
  exact fail_ne_ok _ _ ok

theorem within_of_ok (real : output.Real)
    (start : index ≤ output.bytes.length) (ok : (toGoType t index output memory).result = .ok v) :
    index + 32 * max 1 t.words ≤ output.bytes.length := by
  have inside := index_within real start (not_short ok)
  induction t generalizing index v with
  | array n elem ih =>
    obtain ⟨-, vs, -, each⟩ := array_ok ok
    obtain ⟨done, -⟩ := eachFrom_get real
      (fun i hi v h => ih hi h (index_within real hi (not_short h))) start each
    rw [Ty.words]
    omega
  | _ => simpa [Ty.words] using inside

theorem stride_eq : (32 : ℤ) = wrap (32 * ((1 : ℕ) : ℤ)) :=
  (wrap_of_lt (by norm_num) (by norm_num)).symm

end Positions

section Calls

variable {output : View} {index : ℤ} {word : View} {memory : Option ℕ}

theorem toGoType_word (short : ¬ output.len < wrap (index + 32))
    (yields : (output.slice index (wrap (index + 32))).Yields word) :
    (∀ size, toGoType (.int size) index output memory =
        readInteger (reflectIntKind false size) word) ∧
      (∀ size, toGoType (.uint size) index output memory =
        readInteger (reflectIntKind true size) word) ∧
      toGoType .bool index output memory = readBool word ∧
      toGoType .address index output memory = pure (bytesToAddress word) ∧
      toGoType .function index output memory = readFunctionType word ∧
      ∀ size, toGoType (.fixedBytes size) index output memory = readFixedBytes size word := by
  simp only [toGoType, if_neg short, yields.bind_eq, implies_true, and_self]

end Calls

theorem virtualArgs_add_one (h : t.words < 2 ^ 63) : virtualArgs t + 1 = t.words := by
  cases t with
  | array n elem =>
    have whole : arraySizeFrom n elem = wrap (n * elem.words) := by
      cases elem with
      | array m elem => rw [arraySizeFrom, arraySizeFrom_eq, Ty.words, Nat.cast_mul, mul_assoc]
      | _ =>
        rw [Ty.words, Ty.words, mul_one] at h
        rw [arraySizeFrom, Ty.words, Nat.cast_one, mul_one,
          wrap_of_lt (by positivity) (by exact_mod_cast h)]
        all_goals exact nofun
    rw [virtualArgs, sub_add_cancel, whole, ← Nat.cast_mul]
    exact wrap_of_lt (Int.natCast_nonneg _) (by rw [Ty.words] at h; exact_mod_cast h)
  | _ => rfl

theorem next_argument (real : data.Real) (t : Ty) (index : ℕ)
    (done : index * 32 + 32 * max 1 t.words ≤ data.bytes.length) :
    wrap (index + virtualArgs t + 1) = ((index + t.words : ℕ) : ℤ) ∧
      (index + t.words) * 32 ≤ data.bytes.length := by
  unfold View.Real at real
  constructor
  · rw [add_assoc, virtualArgs_add_one (by omega), ← Nat.cast_add]
    exact wrap_of_lt (by positivity) (by norm_cast; omega)
  · omega

theorem wrap_argument (real : data.Real) (start : index * 32 ≤ data.bytes.length) :
    wrap ((index : ℤ) * 32) = ((index * 32 : ℕ) : ℤ) := by
  exact_mod_cast real.wrap_eq start

end JuChain.Abi
