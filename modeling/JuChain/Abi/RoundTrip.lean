import JuChain.Abi.Layout
import JuChain.Abi.Pack

/-!
# Decoding what was encoded

For which lists of types `UnpackValues` gives back what `Pack` was given, whatever the values
(`exchangeable`).
-/

namespace JuChain.Abi

open BigEndian Decode List

variable {v : Value} {size k m : ℕ} {ts : List Ty}

namespace Ty

/-- Sizes of numbers are multiples of eight up to 256, and fixed-size byte strings fit in a word. -/
def Standard : Ty → Prop
  | int size | uint size => 8 ∣ size ∧ 0 < size ∧ size ≤ 256
  | fixedBytes size => 0 < size ∧ size ≤ 32
  | function => False
  | slice elem | array _ elem => elem.Standard
  | _ => True

/-- The Go type of the value is that of the type. -/
def Typed : Ty → Value → Prop
  | int size, .num kind n => kind = reflectIntKind false size ∧ -2 ^ (size - 1) ≤ n ∧ n < 2 ^ (size - 1)
  | uint size, .num kind n => kind = reflectIntKind true size ∧ 0 ≤ n ∧ n < 2 ^ size
  | bool, .bool _ => True
  | address, .byteArray b => b.length = 20
  | string, .string _ => True
  | bytes, .bytes _ => True
  | fixedBytes size, .byteArray b => b.length = size
  | slice elem, .slice kind vs => kind = elem.kind ∧ ∀ v ∈ vs, elem.Typed v
  | array n elem, .array kind vs => kind = elem.kind ∧ vs.length = n ∧ ∀ v ∈ vs, elem.Typed v
  | _, _ => False

/-- Whether the type is an array. -/
def isArray : Ty → Bool
  | array _ _ => true
  | _ => false

/-- Values of the type are read back from where they were laid out inline. -/
def inline : Ty → Bool
  | int size => size = 8 || size = 16 || size = 32 || size = 64
  | uint _ | bool | address | fixedBytes _ => true
  | array n elem => if n = 0 then !elem.isArray else elem.inline
  | _ => false

/-- The words that have to be there behind the position of a value. -/
def room : Ty → ℕ
  | array n elem => if n = 0 then 1 else max n ((n - 1) * elem.words + elem.room)
  | _ => 1

end Ty

variable {elem : Ty}

theorem typed_array {n : ℕ} (typed : (Ty.array n elem).Typed v) :
    ∃ vs, v = .array elem.kind vs ∧ vs.length = n ∧ ∀ v ∈ vs, elem.Typed v := by
  cases v with
  | array kind vs =>
    obtain ⟨rfl, len, each⟩ := typed
    exact ⟨vs, rfl, len, each⟩
  | _ => exact absurd typed id

theorem typed_slice (typed : (Ty.slice elem).Typed v) :
    ∃ vs, v = .slice elem.kind vs ∧ ∀ v ∈ vs, elem.Typed v := by
  cases v with
  | slice kind vs =>
    obtain ⟨rfl, each⟩ := typed
    exact ⟨vs, rfl, each⟩
  | _ => exact absurd typed id

/-! ## Single words -/

theorem length_packNum (n : ℤ) : (packNum n).length = 32 := length_fixed ..

variable {n : ℤ}

theorem value_packNum (h : 0 ≤ n) (h' : n < 2 ^ 256) : (value (packNum n) : ℤ) = n := by
  rw [packNum, value_fixed, Int.emod_eq_of_lt h h', Nat.mod_eq_of_lt (by norm_num; omega),
    Int.toNat_of_nonneg h]

theorem value_packNum_natCast (h : m < 2 ^ 62) : value (packNum m) = m := by
  exact_mod_cast value_packNum (n := m) (by positivity) (by norm_num; omega)

theorem drop_fixed {w : ℕ} (h : k ≤ w) (n : ℕ) : (fixed w n).drop (w - k) = fixed k n := by
  induction k generalizing w n with
  | zero => simp [fixed]
  | succ k ih =>
    obtain ⟨w, rfl⟩ := Nat.exists_eq_succ_of_ne_zero (Nat.ne_of_gt (Nat.lt_of_lt_of_le k.succ_pos h))
    have shorter : k ≤ w := by omega
    rw [fixed, fixed, Nat.succ_sub_succ, drop_append_of_le_length (by simp), ih shorter]

theorem lastBytes_packNum {word : View} (h : word.bytes = packNum n) (hk : k ≤ 32) :
    ∃ m : ℕ, (lastBytes word k).Yields m ∧ (m : ℤ) = n % 2 ^ (8 * k) := by
  have isWord : word.IsWord := by rw [View.IsWord, h, length_packNum]
  refine ⟨_, lastBytes_yields isWord hk, ?_⟩
  rw [h, packNum, drop_fixed hk, value_fixed]
  have pos : (0 : ℤ) ≤ n % 2 ^ 256 := Int.emod_nonneg _ (by norm_num)
  have whole : ((256 : ℤ) ^ k) ∣ 2 ^ 256 := by
    rw [show (256 : ℤ) = 2 ^ 8 by norm_num, ← pow_mul]
    exact pow_dvd_pow _ (by omega)
  rw [Int.natCast_emod, Nat.cast_pow, Nat.cast_ofNat, Int.toNat_of_nonneg pos,
    Int.emod_emod_of_dvd _ whole, pow_mul]
  norm_num

theorem signed_emod (hm : (m : ℤ) = n % 2 ^ (8 * k)) (pos : 0 < k) (h : -2 ^ (8 * k - 1) ≤ n)
    (h' : n < 2 ^ (8 * k - 1)) : signed k m = n := by
  have half : (2 : ℤ) ^ (8 * k) = 2 * 2 ^ (8 * k - 1) := by
    rw [← pow_succ']
    congr 1
    omega
  have cast : ((2 ^ (8 * k) : ℕ) : ℤ) = 2 ^ (8 * k) := by push_cast; rfl
  rw [signed, hm, ← cast, Int.emod_bmod]
  refine Int.bmod_eq_of_le ?_ ?_ <;> rw [cast, half] <;> omega

theorem reflectIntKind_ptr (unsigned : Bool)
    (h : ¬ (size = 8 ∨ size = 16 ∨ size = 32 ∨ size = 64)) : reflectIntKind unsigned size = .ptr := by
  push Not at h
  obtain ⟨h8, h16, h32, h64⟩ := h
  rw [reflectIntKind, if_neg h8, if_neg h16, if_neg h32, if_neg h64]

section Integers

variable {word : View} {n : ℤ}

section

variable (h : word.bytes = packNum n)
include h

theorem unsigned_yields (hk : k ≤ 32) (kind : Kind) (pos : 0 ≤ n) (small : n < 2 ^ (8 * k)) :
    (do pure (.num kind (← lastBytes word k)) : Decode Value).Yields (.num kind n) := by
  obtain ⟨m, yields, hm⟩ := lastBytes_packNum h hk
  rw [Int.emod_eq_of_lt pos small] at hm
  rw [yields.bind_eq, hm]
  exact yields_pure _

theorem signed_yields (hk : k ≤ 32) (kind : Kind) (pos : 0 < k) (low : -2 ^ (8 * k - 1) ≤ n)
    (high : n < 2 ^ (8 * k - 1)) :
    (do pure (.num kind (signed k (← lastBytes word k))) : Decode Value).Yields (.num kind n) := by
  obtain ⟨m, yields, hm⟩ := lastBytes_packNum h hk
  rw [yields.bind_eq, signed_emod hm pos low high]
  exact yields_pure _

theorem readInteger_unsigned (le : size ≤ 256) (pos : 0 ≤ n) (small : n < 2 ^ size) :
    (readInteger (reflectIntKind true size) word).Yields (.num (reflectIntKind true size) n) := by
  by_cases machine : size = 8 ∨ size = 16 ∨ size = 32 ∨ size = 64
  · rcases machine with rfl | rfl | rfl | rfl
    · exact unsigned_yields h (k := 1) (by norm_num) .uint8 pos small
    · exact unsigned_yields h (k := 2) (by norm_num) .uint16 pos small
    · exact unsigned_yields h (k := 4) (by norm_num) .uint32 pos small
    · exact unsigned_yields h (k := 8) (by norm_num) .uint64 pos small
  · have wide : n < 2 ^ 256 := lt_of_lt_of_le small (pow_le_pow_right₀ (by norm_num) le)
    rw [reflectIntKind_ptr true machine]
    show (pure (.num .ptr (value word.bytes)) : Decode Value).Yields _
    rw [h, value_packNum pos wide]
    exact yields_pure _

theorem readInteger_signed (machine : size = 8 ∨ size = 16 ∨ size = 32 ∨ size = 64)
    (low : -2 ^ (size - 1) ≤ n) (high : n < 2 ^ (size - 1)) :
    (readInteger (reflectIntKind false size) word).Yields (.num (reflectIntKind false size) n) := by
  rcases machine with rfl | rfl | rfl | rfl
  · exact signed_yields h (k := 1) (by norm_num) .int8 (by norm_num) low high
  · exact signed_yields h (k := 2) (by norm_num) .int16 (by norm_num) low high
  · exact signed_yields h (k := 4) (by norm_num) .int32 (by norm_num) low high
  · exact signed_yields h (k := 8) (by norm_num) .int64 (by norm_num) low high

end

end Integers

/-! ## Values laid out inline -/

/-- The bytes of a value, and that they are read back from wherever they stand. -/
structure Codes (t : Ty) (v : Value) (b : Bytes) : Prop where
  packs : pack t v = .ok b
  length : b.length = 32 * t.words
  decodes : ∀ {data : View} {i : ℕ}, data.Real → data.Holds i b → i + 32 * t.room ≤ data.bytes.length →
    (toGoType t i data).Yields v

variable {t : Ty} {b : Bytes}

theorem codes_word (flat : t.words = 1) (len : b.length = 32) (packs : pack t v = .ok b)
    (decodes : ∀ {data : View} {index : ℤ} (spare : Bytes), ¬ data.len < wrap (index + 32) →
      (data.slice index (wrap (index + 32))).Yields ⟨b, spare⟩ → (toGoType t index data).Yields v) :
    Codes t v b where
  packs := packs
  length := by rw [len, flat]
  decodes real there _ := by
    obtain ⟨short, spare, yields⟩ := there.word real len
    exact decodes spare short yields

theorem typeCheck_ok (kind : t.kind = v.kind)
    (count : ∀ size, t = .fixedBytes size → size = v.len) : typeCheck t v = .ok () := by
  unfold typeCheck
  rw [if_neg (not_not.2 kind)]
  cases t with
  | fixedBytes size => exact if_neg (not_not.2 (count size rfl))
  | _ => rfl

theorem pack_flat (slice : ∀ elem, t ≠ .slice elem) (array : t.isArray = false)
    (kind : t.kind = v.kind) (count : ∀ size, t = .fixedBytes size → size = v.len) :
    pack t v = packElement t v := by
  have check := typeCheck_ok kind count
  cases t with
  | slice elem => exact absurd rfl (slice elem)
  | array n elem => exact nomatch array
  | _ =>
    rw [pack, check]
    · rfl
    all_goals exact nofun

theorem codes_int (machine : size = 8 ∨ size = 16 ∨ size = 32 ∨ size = 64)
    (low : -2 ^ (size - 1) ≤ n) (high : n < 2 ^ (size - 1)) :
    Codes (.int size) (.num (reflectIntKind false size) n) (packNum n) := by
  refine codes_word rfl (length_packNum n) (pack_flat nofun rfl rfl nofun) fun spare short yields => ?_
  rw [(toGoType_word short yields).1]
  have word : (View.mk (packNum n) spare).bytes = packNum n := rfl
  exact readInteger_signed word machine low high

theorem codes_uint (le : size ≤ 256) (pos : 0 ≤ n) (small : n < 2 ^ size) :
    Codes (.uint size) (.num (reflectIntKind true size) n) (packNum n) := by
  refine codes_word rfl (length_packNum n) (pack_flat nofun rfl rfl nofun) fun spare short yields => ?_
  rw [(toGoType_word short yields).2.1]
  have word : (View.mk (packNum n) spare).bytes = packNum n := rfl
  exact readInteger_unsigned word le pos small

theorem packNum_of_lt (h : m < 2 ^ 256) : packNum m = fixed 32 m := by
  rw [packNum, Int.emod_eq_of_lt (by positivity) (by exact_mod_cast h), Int.toNat_natCast]

theorem codes_bool (b : Bool) : Codes .bool (.bool b) (packNum b.toNat) := by
  refine codes_word rfl (length_packNum _) rfl fun spare short yields => ?_
  rw [(toGoType_word short yields).2.2.1]
  exact readBool_yields (packNum_of_lt (by cases b <;> norm_num))

theorem codes_address (len : b.length = 20) : Codes .address (.byteArray b) (leftPadBytes b 32) := by
  refine codes_word rfl (by simp [leftPadBytes, len]) rfl fun spare short yields => ?_
  have cut : (leftPadBytes b 32).drop ((leftPadBytes b 32).length - 20) = b := by
    rw [leftPadBytes]
    exact drop_left' (by simp [len])
  rw [(toGoType_word short yields).2.2.2.1, bytesToAddress, cut]
  exact yields_pure _

theorem codes_fixedBytes (len : b.length = size) (le : size ≤ 32) :
    Codes (.fixedBytes size) (.byteArray b) (rightPadBytes b 32) := by
  have whole : (rightPadBytes b 32).length = 32 := by
    simp [rightPadBytes]
    omega
  have cut : (rightPadBytes b 32).take size = b := by
    exact take_left' len
  have counted : Value.len (.byteArray b) = size := by simp [Value.len, Value.elements, len]
  have packs := pack_flat (t := .fixedBytes size) (v := .byteArray b) nofun rfl rfl
    (by rintro _ ⟨⟩; exact counted.symm)
  refine codes_word rfl whole packs fun spare short yields => ?_
  · rw [(toGoType_word short yields).2.2.2.2.2]
    have isWord : View.IsWord ⟨rightPadBytes b 32, spare⟩ := whole
    have front := readFixedBytes_yields isWord le
    rw [cut] at front
    exact front

/-! ## Arrays -/

variable {vs : List Value} {bs : List Bytes}

theorem packEach_ok {f : Value → Except (Fault PackError) Bytes}
    (each : List.Forall₂ (fun v b => f v = .ok b) vs bs) : packEach f vs = .ok bs.flatten := by
  induction each with
  | nil => rfl
  | cons first _ ih =>
    rw [packEach, first, ih]
    rfl

theorem exists_forall₂ {R : Value → Bytes → Prop} (each : ∀ v ∈ vs, ∃ b, R v b) :
    ∃ bs, List.Forall₂ R vs bs := by
  induction vs with
  | nil => exact ⟨[], .nil⟩
  | cons v vs ih =>
    obtain ⟨b, first⟩ := each v (mem_cons_self ..)
    obtain ⟨bs, rest⟩ := ih fun v h => each v (mem_cons_of_mem _ h)
    exact ⟨b :: bs, .cons first rest⟩

theorem checkElements_kind {check : Value → Except (Fault PackError) Unit}
    (array : elem.isArray = false)
    (slice : vs = [] ∨ ∀ e, elem ≠ .slice e) : checkElements elem check elem.kind vs = .ok () := by
  unfold checkElements
  cases elem with
  | array m elem => exact nomatch array
  | slice elem =>
    obtain rfl := slice.resolve_right fun h => h elem rfl
    exact if_pos rfl
  | _ => cases vs <;> exact if_pos rfl

theorem sliceTypeCheck_array {n : ℕ} (inline : (Ty.array n elem).inline) (len : vs.length = n)
    (typed : ∀ v ∈ vs, elem.Typed v) :
    sliceTypeCheck (.array n elem) (.array elem.kind vs) = .ok () := by
  rw [Ty.inline] at inline
  have counted {n : ℕ} {elem : Ty} {vs : List Value} (len : vs.length = n) :
      sliceTypeCheck (.array n elem) (.array elem.kind vs) =
        checkElements elem (sliceTypeCheck elem) elem.kind vs :=
    if_neg (not_not.2 len)
  induction elem generalizing n vs with
  | array m elem ih =>
    rw [counted len]
    split_ifs at inline with zero
    · exact nomatch inline
    · rw [Ty.inline] at inline
      obtain ⟨v, vs, rfl⟩ := exists_cons_of_ne_nil (ne_nil_of_length_pos (by omega : 0 < vs.length))
      obtain ⟨us, rfl, len', typed'⟩ := typed_array (typed v (mem_cons_self ..))
      exact ih inline len' typed'
  | slice elem =>
    rw [counted len]
    split_ifs at inline with zero
    · exact checkElements_kind rfl (.inl (length_eq_zero_iff.1 (len.trans zero)))
    · exact nomatch inline
  | _ =>
    rw [counted len]
    exact checkElements_kind rfl (.inr nofun)

theorem Ty.one_le_room (t : Ty) : 1 ≤ t.room := by
  cases t with
  | array n elem =>
    rw [Ty.room]
    split_ifs with zero
    · exact le_rfl
    · exact le_max_of_le_left (Nat.pos_of_ne_zero zero)
  | _ => exact le_rfl

theorem length_of_codes (each : List.Forall₂ (Codes elem) vs bs) :
    ∀ b ∈ bs, b.length = 32 * elem.words := by
  induction each with
  | nil => exact nofun
  | cons first _ ih => exact forall_mem_cons.2 ⟨first.length, ih⟩

theorem codes_array (inline : (Ty.array vs.length elem).inline) (typed : ∀ v ∈ vs, elem.Typed v)
    (each : List.Forall₂ (Codes elem) vs bs) :
    Codes (.array vs.length elem) (.array elem.kind vs) bs.flatten := by
  obtain ⟨count, every⟩ := forall₂_iff_get.1 each
  have lengths := length_of_codes each
  refine ⟨?_, ?_, fun {data i} real there room => ?_⟩
  · rw [pack, sliceTypeCheck_array inline rfl typed]
    exact packEach_ok (each.imp fun _ _ codes => codes.packs)
  · rw [length_flatten lengths, ← count, Ty.words]
    ring
  · have one := (Ty.array vs.length elem).one_le_room
    have inside := there.le
    rw [length_flatten lengths, ← count] at inside
    obtain ⟨word, -, yields⟩ := word_slice real (by omega : i + 32 ≤ data.bytes.length)
    refine array_value_yields real (not_short_of_le real (by omega)) yields (fun k h => ?_) ?_ ?_
    · have here := there.flatten lengths (getElem?_eq_getElem (by rw [← count]; exact h))
      have position : i + 32 * elem.words * k = i + 32 * (k * elem.words) := by ring
      rw [position] at here
      refine (every k h (by rw [← count]; exact h)).decodes real here ?_
      have last : k * elem.words ≤ (vs.length - 1) * elem.words := Nat.mul_le_mul_right _ (by omega)
      rw [Ty.room, if_neg (by omega)] at room
      omega
    · have position : 32 * elem.words * vs.length = 32 * (vs.length * elem.words) := by ring
      omega
    · rw [Ty.room] at room
      split_ifs at room with zero
      · omega
      · have := le_max_left vs.length ((vs.length - 1) * elem.words + elem.room)
        omega

theorem exists_codes (inline : t.inline) (standard : t.Standard) (typed : t.Typed v) :
    ∃ b, Codes t v b := by
  induction t generalizing v with
  | int size =>
    cases v with
    | num kind n =>
      obtain ⟨rfl, low, high⟩ := typed
      exact ⟨_, codes_int (by simpa [Ty.inline, or_assoc] using inline) low high⟩
    | _ => exact absurd typed id
  | uint size =>
    cases v with
    | num kind n =>
      obtain ⟨rfl, pos, small⟩ := typed
      exact ⟨_, codes_uint standard.2.2 pos small⟩
    | _ => exact absurd typed id
  | bool =>
    cases v with
    | bool b => exact ⟨_, codes_bool b⟩
    | _ => exact absurd typed id
  | address =>
    cases v with
    | byteArray b => exact ⟨_, codes_address typed⟩
    | _ => exact absurd typed id
  | fixedBytes size =>
    cases v with
    | byteArray b => exact ⟨_, codes_fixedBytes typed standard.2⟩
    | _ => exact absurd typed id
  | array n elem ih =>
    obtain ⟨vs, rfl, rfl, each⟩ := typed_array typed
    have elements : ∀ v ∈ vs, ∃ b, Codes elem v b := by
      intro v mem
      rw [Ty.inline, if_neg (Nat.ne_of_gt (length_pos_of_mem mem))] at inline
      exact ih inline standard (each v mem)
    obtain ⟨bs, codes⟩ := exists_forall₂ elements
    exact ⟨_, codes_array inline each codes⟩
  | _ => exact nomatch inline

/-! ## Values behind an offset -/

/-- The bytes of a value that goes to the end of the output, read back through an offset. -/
structure Trails (t : Ty) (v : Value) (b : Bytes) : Prop where
  packs : pack t v = .ok b
  pos : 32 ≤ b.length
  decodes : ∀ {data : View} {i p : ℕ}, data.Real → data.Holds i (packNum p) → data.Holds p b →
    (toGoType t i data).Yields v

theorem length_packBytesSlice (b : Bytes) (l : ℕ) : 32 + b.length ≤ (packBytesSlice b l).length := by
  rw [packBytesSlice, length_append, length_packNum, rightPadBytes, length_append]
  omega

theorem pointer_yields {data : View} {i p l : ℕ} (real : data.Real) (pointer : data.Holds i (packNum p))
    (there : data.Holds p (packBytesSlice b l)) (enough : l ≤ b.length) :
    ¬ data.len < wrap ((i : ℤ) + 32) ∧
      (lengthPrefixPointsTo i data).Yields (((p + 32 : ℕ) : ℤ), (l : ℤ)) ∧ data.Holds (p + 32) b := by
  have inside := there.le
  have long := length_packBytesSlice b l
  have hp : value (packNum p) = p := value_packNum_natCast (by unfold View.Real at real; omega)
  have hl : value (packNum l) = l := value_packNum_natCast (by unfold View.Real at real; omega)
  obtain ⟨short, spare, yields⟩ := pointer.word real (length_packNum _)
  have pointed := lengthPrefix_yields real yields (length_packNum l) (by rw [hp]; exact there.left)
    (by rw [hp, hl]; omega)
  rw [hp, hl] at pointed
  have contents := there.right
  rw [length_packNum] at contents
  exact ⟨short, pointed, contents.left⟩

theorem trails_string (s : Bytes) : Trails .string (.string s) (packBytesSlice s s.length) where
  packs := pack_flat nofun rfl rfl nofun
  pos := (Nat.le_add_right _ _).trans (length_packBytesSlice ..)
  decodes real pointer there := by
    obtain ⟨short, pointed, contents⟩ := pointer_yields real pointer there le_rfl
    exact string_yields real short pointed contents

theorem trails_bytes (b : Bytes) : Trails .bytes (.bytes b) (packBytesSlice b b.length) where
  packs := pack_flat nofun rfl rfl nofun
  pos := (Nat.le_add_right _ _).trans (length_packBytesSlice ..)
  decodes real pointer there := by
    obtain ⟨short, pointed, contents⟩ := pointer_yields real pointer there le_rfl
    exact bytes_yields real short pointed contents

theorem flat_of_inline (inline : t.inline) (array : t.isArray = false) :
    t.words = 1 ∧ t.room = 1 ∧ ∀ elem, t ≠ .slice elem := by
  cases t with
  | array n elem => exact nomatch array
  | slice elem => exact nomatch inline
  | _ => exact ⟨rfl, rfl, nofun⟩

theorem trails_slice (inline : elem.inline) (array : elem.isArray = false)
    (each : List.Forall₂ (Codes elem) vs bs) :
    Trails (.slice elem) (.slice elem.kind vs) (packBytesSlice bs.flatten vs.length) := by
  obtain ⟨flat, one, slice⟩ := flat_of_inline inline array
  obtain ⟨count, every⟩ := forall₂_iff_get.1 each
  have lengths := length_of_codes each
  rw [flat] at lengths
  have total := length_flatten lengths
  refine ⟨?_, ?_, fun {data i p} real pointer there => ?_⟩
  · rw [pack, sliceTypeCheck, Value.elements]
    dsimp only
    rw [checkElements_kind array (.inr slice)]
    show (packEach (pack elem) vs >>= fun packed => _) = _
    rw [packEach_ok (each.imp fun _ _ codes => codes.packs)]
    rfl
  · exact (Nat.le_add_right _ _).trans (length_packBytesSlice ..)
  · obtain ⟨short, pointed, contents⟩ := pointer_yields real pointer there (by omega)
    have inside := contents.le
    refine slice_value_yields real short pointed (fun k h => ?_) (by omega)
    have here := contents.flatten lengths (getElem?_eq_getElem (by rw [← count]; exact h))
    refine (every k h (by rw [← count]; exact h)).decodes real here ?_
    omega

/-- The types of arguments that are read back. -/
def Ty.sound : Ty → Bool
  | .string | .bytes => true
  | .slice elem => elem.inline && !elem.isArray
  | t => t.inline

theorem exists_trails (sound : t.sound) (dynamic : t.requiresLengthPrefix) (standard : t.Standard)
    (typed : t.Typed v) : ∃ b, Trails t v b := by
  cases t with
  | string =>
    cases v with
    | string s => exact ⟨_, trails_string s⟩
    | _ => exact absurd typed id
  | bytes =>
    cases v with
    | bytes b => exact ⟨_, trails_bytes b⟩
    | _ => exact absurd typed id
  | slice elem =>
    obtain ⟨vs, rfl, each⟩ := typed_slice typed
    obtain ⟨inline, array⟩ := Bool.and_eq_true_iff.1 sound
    obtain ⟨bs, codes⟩ := exists_forall₂ fun v mem => exists_codes inline standard (each v mem)
    exact ⟨_, trails_slice inline (by simpa using array) codes⟩
  | _ => exact nomatch dynamic

theorem words_of_prefixed (dynamic : t.requiresLengthPrefix) : t.words = 1 := by
  cases t with
  | array n elem => exact nomatch dynamic
  | _ => rfl

theorem inline_of_sound (sound : t.sound) (dynamic : ¬ t.requiresLengthPrefix) : t.inline := by
  cases t with
  | string | bytes | slice elem => exact absurd rfl dynamic
  | _ => exact sound

/-! ## Arguments -/

/-- The words of the first part. -/
def headWords (ts : List Ty) : ℕ := (ts.map Ty.words).sum

/-- Every argument, from word `index` on, finds its words among the first `total`. -/
def roomy (total : ℕ) : ℕ → List Ty → Bool
  | _, [] => true
  | index, t :: ts => index + t.room ≤ total && roomy total (index + t.words) ts

theorem unpackFrom_cons {data : View} (real : data.Real) {index : ℕ}
    (start : 32 * index ≤ data.bytes.length) (first : (toGoType t ((32 * index : ℕ) : ℤ) data).Yields v)
    (rest : (unpackFrom data ((index + t.words : ℕ) : ℤ) ts).Yields vs) :
    (unpackFrom data index (t :: ts)).Yields (v :: vs) := by
  have result : (toGoType t ((32 * index : ℕ) : ℤ) data).result = .ok v := by rw [first]
  rw [Nat.mul_comm] at start first result
  obtain ⟨next, -⟩ := next_argument real t index (within_of_ok real start result)
  rw [unpackFrom, wrap_argument real start]
  refine first.bind ?_
  rw [next]
  exact rest.bind (yields_pure _)

theorem exists_packFrom {offset : ℤ} {base total : ℕ} (typed : List.Forall₂ Ty.Typed ts vs)
    (sound : ∀ t ∈ ts, t.sound) (standard : ∀ t ∈ ts, t.Standard)
    (pointed : ∀ t ∈ ts, t.requiresLengthPrefix → offset = base) (ret variableInput : Bytes) :
    ∃ heads trailing,
      packFrom offset (ts.zip vs) ret variableInput =
        .ok (ret ++ heads ++ (variableInput ++ trailing)) ∧
        heads.length = 32 * headWords ts ∧ 32 * ts.countP Ty.requiresLengthPrefix ≤ trailing.length ∧
        ∀ {data : View} {index : ℕ}, data.Real → data.Holds (32 * index) heads →
          data.Holds (base + variableInput.length) trailing → roomy total index ts →
          32 * total ≤ data.bytes.length → (unpackFrom data index ts).Yields vs := by
  induction typed generalizing ret variableInput with
  | nil =>
    refine ⟨[], [], ?_, rfl, le_rfl, fun _ _ _ _ _ => yields_pure _⟩
    simp [packFrom]
  | @cons t v ts vs first _ ih =>
    have sound' := sound t (mem_cons_self ..)
    have standard' := standard t (mem_cons_self ..)
    specialize ih (fun t h => sound t (mem_cons_of_mem _ h))
      (fun t h => standard t (mem_cons_of_mem _ h)) (fun t h => pointed t (mem_cons_of_mem _ h))
    by_cases dynamic : t.requiresLengthPrefix
    · obtain ⟨b, trails⟩ := exists_trails sound' dynamic standard' first
      have flat : t.words = 1 := words_of_prefixed dynamic
      have here := pointed t (mem_cons_self ..) dynamic
      set position := packNum (wrap (offset + variableInput.length)) with hposition
      obtain ⟨heads, trailing, packs, lenHeads, lenTrailing, decodes⟩ :=
        ih (ret ++ position) (variableInput ++ b)
      refine ⟨position ++ heads, b ++ trailing, ?_, ?_, ?_,
        fun {data index} real holds there room inside => ?_⟩
      · rw [zip_cons_cons, packFrom, trails.packs]
        show (if t.requiresLengthPrefix then _ else _) = _
        rw [if_pos dynamic, packs]
        simp only [append_assoc]
      · rw [length_append, length_packNum, lenHeads, headWords, headWords, map_cons, sum_cons, flat]
        ring
      · rw [countP_cons_of_pos dynamic, length_append]
        have := trails.pos
        omega
      · obtain ⟨-, room⟩ := Bool.and_eq_true_iff.1 room
        have bound := there.le
        have whole : wrap (offset + variableInput.length) =
            ((base + variableInput.length : ℕ) : ℤ) := by
          unfold View.Real at real
          rw [here, ← Nat.cast_add, wrap_natCast (by omega)]
        have pointer := holds.left
        rw [hposition, whole] at pointer
        have start := holds.le
        refine unpackFrom_cons real (by omega) (trails.decodes real pointer there.left) ?_
        have next := holds.right
        have behind := there.right
        rw [length_packNum, ← Nat.mul_succ] at next
        rw [Nat.add_assoc, ← length_append] at behind
        rw [flat]
        rw [flat] at room
        exact decodes real next behind room inside
    · obtain ⟨b, codes⟩ := exists_codes (inline_of_sound sound' dynamic) standard' first
      obtain ⟨heads, trailing, packs, lenHeads, lenTrailing, decodes⟩ := ih (ret ++ b) variableInput
      refine ⟨b ++ heads, trailing, ?_, ?_, ?_, fun {data index} real holds there room inside => ?_⟩
      · rw [zip_cons_cons, packFrom, codes.packs]
        show (if t.requiresLengthPrefix then _ else _) = _
        rw [if_neg dynamic, packs]
        simp only [append_assoc]
      · rw [length_append, codes.length, lenHeads, headWords, headWords, map_cons, sum_cons]
        ring
      · rw [countP_cons_of_neg dynamic]
        exact lenTrailing
      · obtain ⟨enough, room⟩ := Bool.and_eq_true_iff.1 room
        have enough := of_decide_eq_true enough
        refine unpackFrom_cons real (by omega) (codes.decodes real holds.left (by omega)) ?_
        have next := holds.right
        rw [codes.length, ← Nat.mul_add] at next
        exact decodes real next there room inside

/-- The condition for a list of types to be read back. -/
def exchangeable (ts : List Ty) : Bool :=
  ts.all Ty.sound && roomy (headWords ts + ts.countP Ty.requiresLengthPrefix) 0 ts &&
    (!ts.any Ty.requiresLengthPrefix || inputOffset ts = 32 * headWords ts)

/-- `UnpackValues` gives back whatever values of the types `Pack` is given, as far as the output
fits in memory. -/
def RoundTrips (ts : List Ty) : Prop :=
  ∀ vs, List.Forall₂ Ty.Typed ts vs → ∃ data, packArguments ts vs = .ok data ∧
    (data.length < 2 ^ 62 → ∀ spare,
      (unpackValues (ts.map fun t => ⟨t, false⟩) ⟨data, spare⟩).Yields vs)

theorem nonIndexed_map (ts : List Ty) :
    nonIndexed (ts.map fun t => (⟨t, false⟩ : Argument)) = ts := by
  unfold nonIndexed
  induction ts with
  | nil => rfl
  | cons t ts ih => rw [map_cons, filter_cons_of_pos rfl, map_cons, ih]

theorem roundTrips_of_exchangeable (standard : ∀ t ∈ ts, t.Standard) (h : exchangeable ts) :
    RoundTrips ts := by
  intro vs typed
  obtain ⟨front, offset⟩ := Bool.and_eq_true_iff.1 h
  obtain ⟨sound, room⟩ := Bool.and_eq_true_iff.1 front
  have pointed : ∀ t ∈ ts, t.requiresLengthPrefix → inputOffset ts = ((32 * headWords ts : ℕ) : ℤ) := by
    intro t mem dynamic
    have some : ts.any Ty.requiresLengthPrefix = true := any_eq_true.2 ⟨t, mem, dynamic⟩
    simpa [some] using offset
  obtain ⟨heads, trailing, packs, lenHeads, lenTrailing, decodes⟩ :=
    exists_packFrom typed (fun t mem => all_eq_true.1 sound t mem) standard pointed [] []
  rw [nil_append, nil_append] at packs
  refine ⟨heads ++ trailing, ?_, fun small spare => ?_⟩
  · rw [packArguments, if_neg (not_not.2 typed.length_eq.symm), packs]
  · rw [unpackValues, nonIndexed_map]
    have front : View.Holds ⟨heads ++ trailing, spare⟩ (32 * 0) heads := ⟨[], trailing, by simp, rfl⟩
    have back : View.Holds ⟨heads ++ trailing, spare⟩ (32 * headWords ts + 0) trailing :=
      ⟨heads, [], by simp, by simp [lenHeads]⟩
    refine decodes small front back room ?_
    simp only [length_append]
    omega

end JuChain.Abi
