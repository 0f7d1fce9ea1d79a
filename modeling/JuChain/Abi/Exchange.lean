import JuChain.Abi.RoundTrip

/-!
# Which types are read back

For each condition of `exchangeable` that fails there are values that do not come back.  All
arguments but one are zero, so that the output is known.
-/

namespace JuChain.Abi

open BigEndian Decode Slices List Except

variable {v : Value} {vs : List Value} {data : View}

/-! ## Zero values -/

namespace Ty

/-- The value of a Go variable of the type that has not been assigned to. -/
def zero : Ty → Value
  | int size => .num (reflectIntKind false size) 0
  | uint size => .num (reflectIntKind true size) 0
  | bool => .bool false
  | address => .byteArray (replicate 20 0)
  | string => .string []
  | bytes => .bytes []
  | fixedBytes size => .byteArray (replicate size 0)
  | function => .byteArray (replicate 24 0)
  | slice elem => .slice elem.kind []
  | array n elem => .array elem.kind (replicate n elem.zero)

theorem typed_zero {t : Ty} (standard : t.Standard) : t.Typed t.zero := by
  induction t with
  | int size => exact ⟨rfl, by simp, by positivity⟩
  | uint size => exact ⟨rfl, le_rfl, by positivity⟩
  | address | fixedBytes size => exact length_replicate
  | function => exact standard
  | slice elem => exact ⟨rfl, nofun⟩
  | array n elem ih =>
    refine ⟨rfl, length_replicate, fun v mem => ?_⟩
    rw [eq_of_mem_replicate mem]
    exact ih standard
  | _ => trivial

end Ty

/-- So many zero bytes. -/
def zeros (n : ℕ) : Bytes := replicate n 0

theorem length_zeros (n : ℕ) : (zeros n).length = n := length_replicate

theorem zeros_add (m n : ℕ) : zeros (m + n) = zeros m ++ zeros n := replicate_add ..

variable {n index m size i k : ℕ}

theorem zeros_split (h : k ≤ n) : zeros n = zeros k ++ zeros (n - k) := by
  rw [← zeros_add, Nat.add_sub_cancel' h]

theorem packNum_zero : packNum 0 = zeros 32 := fixed_zero 32

theorem rightPadBytes_zeros (n l : ℕ) : rightPadBytes (zeros n) l = zeros (max n l) := by
  rw [rightPadBytes, length_zeros, zeros, ← replicate_add, zeros]
  congr 1
  omega

theorem leftPadBytes_zeros (n l : ℕ) : leftPadBytes (zeros n) l = zeros (max n l) := by
  rw [leftPadBytes, length_zeros, zeros, ← replicate_add, zeros]
  congr 1
  omega

variable {b rest : Bytes}

theorem packEach_zeros {f : Value → Except (Fault PackError) Bytes} {l : ℕ}
    (each : ∀ b, f v = .ok b → b = zeros l) (packs : packEach f (replicate n v) = .ok b) :
    b = zeros (n * l) := by
  induction n generalizing b with
  | zero => rw [← ok.inj packs, Nat.zero_mul]; rfl
  | succ n ih =>
    obtain ⟨first, hfirst, packs⟩ := bind_eq_ok.1 packs
    obtain ⟨rest, hrest, packs⟩ := bind_eq_ok.1 packs
    rw [← ok.inj packs, each first hfirst, ih hrest, ← zeros_add, Nat.succ_mul, Nat.add_comm]

variable {elem : Ty}

theorem pack_slice_ok (packs : pack (.slice elem) v = .ok b) :
    ∃ packed, packEach (pack elem) (elementsOf v) = .ok packed ∧
      b = packBytesSlice packed (elementsOf v).length := by
  obtain ⟨-, -, packs⟩ := bind_eq_ok.1 packs
  obtain ⟨packed, each, packs⟩ := bind_eq_ok.1 packs
  exact ⟨packed, each, (ok.inj packs).symm⟩

theorem pack_array_ok (packs : pack (.array n elem) v = .ok b) :
    packEach (pack elem) (elementsOf v) = .ok b := by
  obtain ⟨-, -, packs⟩ := bind_eq_ok.1 packs
  exact packs

theorem pack_single (packs : pack (.slice elem) (.slice elem.kind [v]) = .ok b) :
    ∃ piece, pack elem v = .ok piece ∧ b = packNum ((1 : ℕ) : ℤ) ++ rightPadBytes piece 32 := by
  obtain ⟨packed, each, hb⟩ := pack_slice_ok packs
  have single : elementsOf (.slice elem.kind [v]) = [v] := rfl
  rw [single] at each hb
  obtain ⟨piece, first, each⟩ := bind_eq_ok.1 each
  have hpacked : piece = packed := by rw [← ok.inj each, append_nil]
  refine ⟨piece, first, ?_⟩
  rw [hb, hpacked, packBytesSlice, length_singleton]

theorem packBytesSlice_nil : packBytesSlice [] 0 = zeros 32 :=
  (append_nil _).trans packNum_zero

variable {t : Ty}

theorem pack_zero (standard : t.Standard) (packs : pack t t.zero = .ok b) :
    b = zeros (32 * t.words) := by
  induction t generalizing b with
  | int | uint | bool =>
    have flat : ok b = ok (packNum 0) := packs.symm.trans (pack_flat (by simp) rfl rfl (by simp))
    exact (ok.inj flat).trans packNum_zero
  | address =>
    have flat : pack .address Ty.address.zero = .ok (leftPadBytes (zeros 20) 32) :=
      pack_flat nofun rfl rfl nofun
    exact (ok.inj (packs.symm.trans flat)).trans (leftPadBytes_zeros 20 32)
  | string | bytes =>
    have flat : ok b = ok (packBytesSlice [] 0) :=
      packs.symm.trans (pack_flat (by simp) rfl rfl (by simp))
    exact (ok.inj flat).trans packBytesSlice_nil
  | fixedBytes size =>
    have flat : pack (.fixedBytes size) (Ty.fixedBytes size).zero =
        .ok (rightPadBytes (zeros size) 32) := by
      refine pack_flat nofun rfl rfl ?_
      simp [Value.len, Value.elements, Ty.zero]
    rw [ok.inj (packs.symm.trans flat), rightPadBytes_zeros, max_eq_right standard.2]
    rfl
  | function => exact standard.elim
  | slice elem =>
    obtain ⟨packed, each, hb⟩ := pack_slice_ok packs
    have none : elementsOf (Ty.slice elem).zero = [] := rfl
    rw [hb, none, ← ok.inj each]
    exact packBytesSlice_nil
  | array n elem ih =>
    have every := packEach_zeros (fun b h => ih standard h) (pack_array_ok packs)
    rw [every, Ty.words]
    rw [Nat.mul_left_comm]

/-! ## The output around one argument -/

/-- The number of arguments with a length prefix. -/
def prefixed (ts : List Ty) : ℕ := ts.countP Ty.requiresLengthPrefix

/-- The first part of the output for zero values, with `l` bytes before their second part. -/
def zeroHeads (offset : ℤ) : ℕ → List Ty → Bytes
  | _, [] => []
  | l, t :: ts =>
    if t.requiresLengthPrefix then packNum (wrap (offset + l)) ++ zeroHeads offset (l + 32) ts
    else zeros (32 * t.words) ++ zeroHeads offset l ts

theorem length_zeroHeads (offset : ℤ) (l : ℕ) (ts : List Ty) :
    (zeroHeads offset l ts).length = 32 * headWords ts := by
  induction ts generalizing l with
  | nil => rfl
  | cons t ts ih =>
    have sum : headWords (t :: ts) = t.words + headWords ts := rfl
    rw [zeroHeads, sum, Nat.mul_add]
    split_ifs with dynamic
    · rw [length_append, length_packNum, ih, words_of_prefixed dynamic]
    · rw [length_append, length_zeros, ih]

theorem prefixed_cons (t : Ty) (ts : List Ty) :
    prefixed (t :: ts) = (if t.requiresLengthPrefix then 1 else 0) + prefixed ts := by
  rw [prefixed, countP_cons, Nat.add_comm, prefixed]

variable {ts after : List Ty}

theorem packFrom_zeros {offset : ℤ} {rest : List (Ty × Value)} {ret variableInput data : Bytes}
    (standard : ∀ t ∈ ts, t.Standard)
    (packs : packFrom offset ((ts.map fun t => (t, t.zero)) ++ rest) ret variableInput = .ok data) :
    packFrom offset rest (ret ++ zeroHeads offset variableInput.length ts)
      (variableInput ++ zeros (32 * prefixed ts)) = .ok data := by
  induction ts generalizing ret variableInput with
  | nil => simpa [zeroHeads, prefixed, zeros] using packs
  | cons t ts ih =>
    obtain ⟨b, first, packs⟩ := bind_eq_ok.1 packs
    have hb := pack_zero (standard t (mem_cons_self ..)) first
    have later := fun t h => standard t (mem_cons_of_mem _ h)
    rw [zeroHeads, prefixed_cons]
    split_ifs at packs ⊢ with dynamic
    · rw [words_of_prefixed dynamic] at hb
      have done := ih later packs
      rw [hb, length_append, length_zeros] at done
      rw [Nat.mul_add, zeros_add, ← append_assoc, ← append_assoc]
      exact done
    · have done := ih later packs
      rw [hb] at done
      rw [Nat.zero_add, ← append_assoc]
      exact done

theorem zip_zeros (ts : List Ty) : ts.zip (ts.map Ty.zero) = ts.map fun t => (t, t.zero) := by
  induction ts with
  | nil => rfl
  | cons t ts ih => rw [map_cons, zip_cons_cons, ih, map_cons]

variable {before : List Ty}

/-- The output for `b` between zero values, with `offset` bytes in the first part. -/
def around (offset : ℤ) (before : List Ty) (t : Ty) (after : List Ty) (b : Bytes) : Bytes :=
  if t.requiresLengthPrefix then
    zeroHeads offset 0 before ++ (packNum (wrap (offset + (32 * prefixed before : ℕ))) ++
      (zeroHeads offset (32 * prefixed before + b.length) after ++
      (zeros (32 * prefixed before) ++ (b ++ zeros (32 * prefixed after)))))
  else zeroHeads offset 0 before ++ (b ++ (zeroHeads offset (32 * prefixed before) after ++
    (zeros (32 * prefixed before) ++ zeros (32 * prefixed after))))

section Standard

variable (standard : ∀ s ∈ before ++ t :: after, s.Standard)
include standard

theorem standard_before : ∀ s ∈ before, s.Standard := fun s h => standard s (mem_append_left _ h)

theorem standard_self : t.Standard := standard t (by simp)

theorem standard_after : ∀ s ∈ after, s.Standard :=
  fun s h => standard s (mem_append_right _ (mem_cons_of_mem _ h))

theorem pack_around {data : Bytes}
    (packs : packArguments (before ++ t :: after) (before.map Ty.zero ++ v :: after.map Ty.zero) =
      .ok data) :
    ∃ b, pack t v = .ok b ∧ data = around (inputOffset (before ++ t :: after)) before t after b := by
  rw [packArguments, if_neg (not_not.2 (by simp))] at packs
  rw [zip_append (by simp), zip_cons_cons, zip_zeros, zip_zeros] at packs
  have front := packFrom_zeros (standard_before standard) packs
  obtain ⟨b, first, front⟩ := bind_eq_ok.1 front
  refine ⟨b, first, ?_⟩
  unfold around
  rw [← append_nil (map _ after)] at front
  split_ifs at front ⊢ with dynamic
  all_goals
    rw [← ok.inj (packFrom_zeros (standard_after standard) front)]
    simp [length_zeros, append_assoc]

end Standard

theorem argument_ok (real : data.Real)
    {valuesBefore valuesAfter : List Value} (start : 32 * index ≤ data.bytes.length)
    (ok : (unpackFrom data index (before ++ t :: after)).result =
      .ok (valuesBefore ++ v :: valuesAfter)) (len : valuesBefore.length = before.length) :
    (toGoType t ((32 * (index + headWords before) : ℕ) : ℤ) data).result = .ok v ∧
      32 * (index + headWords before) ≤ data.bytes.length := by
  induction before generalizing index valuesBefore with
  | nil =>
    obtain rfl := length_eq_zero_iff.1 len
    rw [nil_append, nil_append, unpackFrom, wrap_argument real (by omega)] at ok
    obtain ⟨w, first, ok⟩ := bind_ok.1 ok
    obtain ⟨ws, -, ok⟩ := bind_ok.1 ok
    obtain ⟨rfl, -⟩ := cons_eq_cons.1 (Except.ok.inj ok)
    rw [Nat.mul_comm] at first
    exact ⟨first, start⟩
  | cons s before ih =>
    obtain ⟨w, valuesBefore, rfl⟩ := exists_cons_of_ne_nil (ne_nil_of_length_eq_add_one len)
    have start' : index * 32 ≤ data.bytes.length := by omega
    rw [cons_append, unpackFrom, wrap_argument real start'] at ok
    obtain ⟨w', first, ok⟩ := bind_ok.1 ok
    obtain ⟨ws, rest, ok⟩ := bind_ok.1 ok
    obtain ⟨rfl, rfl⟩ := cons_eq_cons.1 (Except.ok.inj ok)
    obtain ⟨next, inside⟩ := next_argument real s index (within_of_ok real start' first)
    rw [next] at rest
    have done := ih (by omega) rest (Nat.succ.inj len)
    rw [Nat.add_assoc] at done
    exact done

/-- The bytes of zero values of the types. -/
def load (ts : List Ty) : ℕ := 32 * (headWords ts + prefixed ts)

theorem not_roundTrips (standard : ∀ s ∈ before ++ t :: after, s.Standard)
    (typed : t.Typed v)
    (fits : ∀ b, pack t v = .ok b → load before + load after + 32 + b.length < 2 ^ 62)
    (refuted : ∀ b data, pack t v = .ok b →
      data = around (inputOffset (before ++ t :: after)) before t after b →
      View.Real ⟨data, []⟩ → (toGoType t ((32 * headWords before : ℕ) : ℤ) ⟨data, []⟩).result ≠ .ok v) :
    ¬ RoundTrips (before ++ t :: after) := by
  intro trips
  have zero {ts : List Ty} (h : ∀ s ∈ ts, s.Standard) : List.Forall₂ Ty.Typed ts (ts.map Ty.zero) := by
    refine forall₂_map_right_iff.2 (forall₂_same.2 fun s mem => Ty.typed_zero (h s mem))
  obtain ⟨data, packs, decodes⟩ := trips (before.map Ty.zero ++ v :: after.map Ty.zero)
    (rel_append (zero (standard_before standard)) (.cons typed (zero (standard_after standard))))
  obtain ⟨b, first, layout⟩ := pack_around standard packs
  have length : data.length ≤ load before + load after + 32 + b.length := by
    rw [layout, around, load, load]
    split_ifs <;> simp only [length_append, length_zeroHeads, length_packNum, length_zeros] <;> omega
  have yields := decodes (length.trans_lt (fits b first)) []
  rw [unpackValues, nonIndexed_map] at yields
  have result : (unpackFrom ⟨data, []⟩ ((0 : ℕ) : ℤ) (before ++ t :: after)).result =
      .ok (before.map Ty.zero ++ v :: after.map Ty.zero) := by
    rw [show ((0 : ℕ) : ℤ) = 0 from rfl, yields]
  have real : View.Real ⟨data, []⟩ := length.trans_lt (fits b first)
  obtain ⟨ok, -⟩ := argument_ok real (Nat.zero_le _) result (by simp)
  rw [Nat.zero_add] at ok
  exact refuted b data first layout real ok

section Decoded

variable {output : View} {index elemSize : ℤ} {elem : Ty} {v : Value} {decode : ℤ → Decode Value}

theorem eachFrom_head {n : ℕ}
    (ok : (eachFrom decode elemSize n index).result = .ok (v :: vs)) :
    (decode index).result = .ok v := by
  cases n with
  | zero => exact nomatch ok
  | succ n =>
    obtain ⟨w, first, ok⟩ := bind_ok.1 ok
    obtain ⟨ws, -, ok⟩ := bind_ok.1 ok
    obtain ⟨rfl, -⟩ := cons_eq_cons.1 (Except.ok.inj ok)
    exact first

theorem eachFrom_length {n : ℕ}
    (ok : (eachFrom decode elemSize n index).result = .ok vs) : vs.length = n := by
  induction n generalizing index vs with
  | zero => rw [← Except.ok.inj ok]; rfl
  | succ n ih =>
    obtain ⟨w, -, ok⟩ := bind_ok.1 ok
    obtain ⟨ws, rest, ok⟩ := bind_ok.1 ok
    rw [← Except.ok.inj ok, length_cons, ih rest]

theorem int_ok (big : reflectIntKind false size = .ptr)
    (ok : (toGoType (.int size) index output).result = .ok v) : ∃ n : ℕ, v = .num .ptr n := by
  rw [toGoType] at ok
  split_ifs at ok
  · exact (fail_ne_ok _ _ ok).elim
  obtain ⟨word, -, ok⟩ := bind_ok.1 ok
  rw [big] at ok
  exact ⟨value word.bytes, (Except.ok.inj ok).symm⟩

end Decoded

/-! ## Values that never come back -/

namespace Ty

/-- The words that a small value of the type takes at most. -/
def bulk : Ty → ℕ
  | slice elem => 2 + elem.bulk
  | array n elem => max 1 n * elem.bulk
  | _ => 1

theorem bulk_pos (t : Ty) : 0 < t.bulk := by
  induction t with
  | slice elem => exact Nat.add_pos_left two_pos _
  | array n elem ih => exact Nat.mul_pos (Nat.lt_of_lt_of_le one_pos (le_max_left _ _)) ih
  | _ => exact one_pos

theorem words_le_bulk (t : Ty) : t.words ≤ t.bulk := by
  induction t with
  | slice elem => exact (Ty.slice elem).bulk_pos
  | array n elem ih => exact Nat.mul_le_mul (le_max_right _ _) ih
  | _ => exact le_rfl

end Ty

/-- Some value is refused by `Pack`, or read back as another one wherever it stands. -/
def Bad (t : Ty) : Prop :=
  ∃ v, t.Typed v ∧ ∀ b, pack t v = .ok b →
    b.length ≤ 32 * t.bulk ∧ ∀ data index, (toGoType t index data).result ≠ .ok v

theorem bad_int (h : ¬ (Ty.int size).inline) : Bad (.int size) := by
  have big : reflectIntKind false size = .ptr :=
    reflectIntKind_ptr false (by simpa [Ty.inline, or_assoc] using h)
  refine ⟨.num .ptr (-1), ⟨big.symm, ?_, ?_⟩, fun b packs => ⟨?_, fun data index ok => ?_⟩⟩
  · have : (1 : ℤ) ≤ 2 ^ (size - 1) := one_le_pow₀ (by norm_num)
    omega
  · have : (0 : ℤ) < 2 ^ (size - 1) := by positivity
    omega
  · have flat : pack (.int size) (.num .ptr (-1)) = .ok (packNum (-1)) :=
      pack_flat (by simp) rfl big (by simp)
    rw [ok.inj (packs.symm.trans flat), length_packNum]
    exact le_rfl
  · obtain ⟨n, eq⟩ := int_ok big ok
    obtain ⟨-, eq⟩ := Value.num.inj eq
    omega

theorem bad_slice_array (n : ℕ) (elem : Ty) : Bad (.slice (.array n elem)) := by
  refine ⟨.slice .array [], ⟨rfl, nofun⟩, fun b packs => ?_⟩
  have crash : pack (.slice (.array n elem)) (.slice .array []) = .error .panic := rfl
  exact nomatch crash.symm.trans packs

theorem bad_array_array (n : ℕ) (elem : Ty) : Bad (.array 0 (.array n elem)) := by
  refine ⟨.array .array [], ⟨rfl, rfl, nofun⟩, fun b packs => ?_⟩
  have crash : pack (.array 0 (.array n elem)) (.array .array []) = .error .panic := rfl
  exact nomatch crash.symm.trans packs

theorem Bad.slice (bad : Bad elem) : Bad (.slice elem) := by
  obtain ⟨v, typed, never⟩ := bad
  refine ⟨.slice elem.kind [v], ⟨rfl, fun u mem => mem_singleton.1 mem ▸ typed⟩, fun b packs => ?_⟩
  obtain ⟨piece, first, rfl⟩ := pack_single packs
  obtain ⟨short, lost⟩ := never piece first
  refine ⟨?_, fun data index ok => ?_⟩
  · rw [rightPadBytes, Ty.bulk]
    simp only [length_append, length_packNum, length_replicate]
    omega
  · obtain ⟨begin, length, vs, -, eq, each⟩ := slice_ok ok
    obtain ⟨-, rfl⟩ := Value.slice.inj eq
    exact lost data begin (eachFrom_head each)

/-- The array that starts with `v`. -/
def Ty.first (n : ℕ) (elem : Ty) (v : Value) : Value :=
  .array elem.kind (v :: replicate (n - 1) elem.zero)

theorem typed_first (pos : 0 < n) (standard : elem.Standard) (typed : elem.Typed v) :
    (Ty.array n elem).Typed (Ty.first n elem v) := by
  refine ⟨rfl, ?_, fun u mem => ?_⟩
  · rw [length_cons, length_replicate]
    omega
  · rcases mem_cons.1 mem with rfl | mem
    · exact typed
    · rw [eq_of_mem_replicate mem]
      exact Ty.typed_zero standard

theorem pack_first (standard : elem.Standard)
    (packs : pack (.array n elem) (Ty.first n elem v) = .ok b) :
    ∃ piece, pack elem v = .ok piece ∧ b = piece ++ zeros (32 * ((n - 1) * elem.words)) := by
  have each := pack_array_ok packs
  obtain ⟨piece, first, each⟩ := bind_eq_ok.1 each
  obtain ⟨rest, zero, each⟩ := bind_eq_ok.1 each
  refine ⟨piece, first, ?_⟩
  rw [← ok.inj each, packEach_zeros (fun b h => pack_zero standard h) zero, Nat.mul_left_comm]

theorem Bad.array (some : n ≠ 0) (standard : elem.Standard) (bad : Bad elem) : Bad (.array n elem) := by
  obtain ⟨v, typed, never⟩ := bad
  have pos := Nat.pos_of_ne_zero some
  refine ⟨Ty.first n elem v, typed_first pos standard typed, fun b packs => ?_⟩
  obtain ⟨piece, first, rfl⟩ := pack_first standard packs
  obtain ⟨short, lost⟩ := never piece first
  refine ⟨?_, fun data index ok => ?_⟩
  · rw [length_append, length_zeros, Ty.bulk, max_eq_right pos]
    have := Nat.mul_le_mul_left (n - 1) elem.words_le_bulk
    have split : n * elem.bulk = (n - 1) * elem.bulk + elem.bulk := by
      rw [← Nat.succ_mul, Nat.sub_one, Nat.succ_pred some]
    omega
  · obtain ⟨-, vs, eq, each⟩ := array_ok ok
    obtain ⟨-, rfl⟩ := Value.array.inj eq
    exact lost data index (eachFrom_head each)

/-! ## Lengths that do not come back -/

/-- The length of a string, a byte string or a slice. -/
def Value.count : Value → ℕ
  | string s => s.length
  | bytes b => b.length
  | slice _ vs => vs.length
  | _ => 0

/-- A value with `m` zero elements, where the type has any. -/
def Ty.items (m : ℕ) : Ty → Value
  | string => .string (zeros m)
  | bytes => .bytes (zeros m)
  | slice elem => .slice elem.kind (replicate m elem.zero)
  | t => t.zero

section Items

variable {t : Ty} (dynamic : t.requiresLengthPrefix) (m : ℕ)

include dynamic

theorem count_items : (t.items m).count = m := by
  cases t with
  | string | bytes => exact length_zeros m
  | slice elem => exact length_replicate
  | _ => exact nomatch dynamic

theorem typed_items (standard : t.Standard) : t.Typed (t.items m) := by
  cases t with
  | string | bytes => trivial
  | slice elem =>
    refine ⟨rfl, fun v mem => ?_⟩
    rw [eq_of_mem_replicate mem]
    exact Ty.typed_zero standard
  | _ => exact nomatch dynamic

theorem pack_items (standard : t.Standard) {b : Bytes} (packs : pack t (t.items m) = .ok b) :
    ∃ q, (m + 31) / 32 * 32 ≤ q ∧ q ≤ 32 * (m * t.bulk) ∧ b = packNum m ++ zeros q := by
  have padded (n : ℕ) : packBytesSlice (zeros n) m = packNum m ++
      zeros (max n ((m + 31) / 32 * 32)) := by
    rw [packBytesSlice, rightPadBytes_zeros]
  cases t with
  | string | bytes =>
    have flat : ok b = ok (packBytesSlice (zeros m) (zeros m).length) :=
      packs.symm.trans (pack_flat (by simp) rfl rfl (by simp))
    refine ⟨_, le_max_right m _, ?_, ?_⟩
    · show max m ((m + 31) / 32 * 32) ≤ 32 * (m * 1)
      omega
    · rw [ok.inj flat, length_zeros, padded]
  | slice elem =>
    obtain ⟨packed, each, hb⟩ := pack_slice_ok packs
    have all : elementsOf ((Ty.slice elem).items m) = replicate m elem.zero := rfl
    rw [all] at each hb
    refine ⟨_, le_max_right (m * (32 * elem.words)) _, ?_, ?_⟩
    · have := Nat.mul_le_mul_left m elem.words_le_bulk
      have position : m * (32 * elem.words) = 32 * (m * elem.words) := by ring
      have split : m * (2 + elem.bulk) = 2 * m + m * elem.bulk := by ring
      rw [Ty.bulk, position, split]
      omega
    · rw [hb, length_replicate, packEach_zeros (fun b h => pack_zero (t := elem) standard h) each,
        padded]
  | _ => cases dynamic

end Items

variable {output : View}

theorem length_slice {contents : View} {lo hi : ℤ} (ok : (output.slice lo hi).result = .ok contents) :
    (contents.bytes.length : ℤ) = hi - lo := by
  rw [View.slice] at ok
  split_ifs at ok with inside
  · rw [← Except.ok.inj ok]
    simp only [length_drop, length_take, length_append]
    omega
  · exact nomatch ok

theorem prefixed_ok (real : output.Real) (dynamic : t.requiresLengthPrefix) {index : ℤ}
    (ok : (toGoType t index output).result = .ok v) :
    ∃ begin length, (lengthPrefixPointsTo index output).result = .ok (begin, length) ∧
      (v.count : ℤ) = length := by
  have contents {begin length : ℤ}
    (pointer : (lengthPrefixPointsTo index output).result = .ok (begin, length))
      {c : View} (ok : (output.slice begin (wrap (begin + length))).result = .ok c) :
      (c.bytes.length : ℤ) = length := by
    obtain ⟨h, h', inside⟩ := lengthPrefix_within pointer
    unfold View.Real at real
    rw [length_slice ok, wrap_of_lt (by omega) (by omega), add_sub_cancel_left]
  cases t with
  | string | bytes =>
    rw [toGoType] at ok
    split_ifs at ok
    · exact (fail_ne_ok _ _ ok).elim
    obtain ⟨⟨begin, length⟩, pointer, ok⟩ := bind_ok.1 ok
    obtain ⟨c, sliced, ok⟩ := bind_ok.1 ok
    rw [← Except.ok.inj ok]
    exact ⟨begin, length, pointer, contents pointer sliced⟩
  | slice elem =>
    obtain ⟨begin, length, vs, pointer, rfl, each⟩ := slice_ok ok
    refine ⟨begin, length, pointer, ?_⟩
    rw [Value.count, eachFrom_length each, Int.toNat_of_nonneg (lengthPrefix_within pointer).2.1]
  | _ => cases dynamic

theorem count_of_ok (real : data.Real) (dynamic : t.requiresLengthPrefix) {p : ℕ} {w : Bytes}
    (pointer : data.Holds i (packNum p)) (there : data.Holds p w) (len : w.length = 32)
    (ok : (toGoType t i data).result = .ok v) : v.count = value w := by
  have inside := there.le
  have hp : value (packNum p) = p := value_packNum_natCast (by unfold View.Real at real; omega)
  obtain ⟨-, spare, yields⟩ := pointer.word real (length_packNum _)
  obtain ⟨begin, length, prefixed, count⟩ := prefixed_ok real dynamic ok
  obtain ⟨-, hl⟩ := lengthPrefix_of_holds yields len (by rw [hp]; exact there) prefixed
  exact_mod_cast count.trans hl

theorem no_items (real : data.Real) (dynamic : t.requiresLengthPrefix) {p : ℕ}
    (pointer : data.Holds i (packNum p))
    (there : data.Holds p (zeros 32)) (ok : (toGoType t i data).result = .ok (t.items m)) : m = 0 := by
  have count := count_of_ok real dynamic pointer there (length_zeros 32) ok
  rwa [count_items dynamic] at count

/-! ## Elements that are laid out inline but read through an offset -/

namespace Ty

/-- A value starts with a string, bytes or a slice. -/
def headed : Ty → Bool
  | string | bytes | slice _ => true
  | array n elem => n ≠ 0 && elem.headed
  | _ => false

/-- The value that starts with `m` zeros. -/
def lead (m : ℕ) : Ty → Value
  | array n elem => .array elem.kind (elem.lead m :: replicate (n - 1) elem.zero)
  | t => t.items m

end Ty

theorem headed_array (headed : (Ty.array n elem).headed) : 0 < n ∧ elem.headed := by
  obtain ⟨some, headed⟩ := Bool.and_eq_true_iff.1 headed
  exact ⟨Nat.pos_of_ne_zero (by simpa using some), headed⟩

theorem typed_lead (headed : t.headed) (standard : t.Standard) (m : ℕ) : t.Typed (t.lead m) := by
  induction t with
  | array n elem ih =>
    obtain ⟨some, headed⟩ := headed_array headed
    exact typed_first some standard (ih headed standard)
  | string | bytes => trivial
  | slice elem => exact typed_items rfl m standard
  | _ => exact nomatch headed

theorem pack_lead (headed : t.headed) (standard : t.Standard) (pos : 0 < m)
    (packs : pack t (t.lead m) = .ok b) :
    ∃ rest, b = packNum m ++ (zeros 32 ++ rest) ∧ b.length ≤ 32 + 32 * ((m + 1) * t.bulk) := by
  have direct {t : Ty} (dynamic : t.requiresLengthPrefix) (standard : t.Standard) {b : Bytes}
      (packs : pack t (t.items m) = .ok b) :
      ∃ rest, b = packNum m ++ (zeros 32 ++ rest) ∧ b.length ≤ 32 + 32 * ((m + 1) * t.bulk) := by
    obtain ⟨q, enough, bound, hb⟩ := pack_items dynamic m standard packs
    refine ⟨zeros (q - 32), ?_, ?_⟩
    · rw [hb, zeros_split (by omega : 32 ≤ q)]
    · have split : (m + 1) * t.bulk = m * t.bulk + t.bulk := Nat.succ_mul ..
      rw [hb, length_append, length_packNum, length_zeros]
      omega
  induction t generalizing b with
  | array n elem ih =>
    obtain ⟨some, headed⟩ := headed_array headed
    have self : elem.Standard := standard
    obtain ⟨piece, first, rfl⟩ := pack_first self packs
    obtain ⟨rest, hpiece, bound⟩ := ih headed self first
    refine ⟨rest ++ zeros (32 * ((n - 1) * elem.words)), ?_, ?_⟩
    · rw [hpiece]
      simp only [append_assoc]
    · rw [length_append, length_zeros, Ty.bulk, max_eq_right some]
      have smaller := Nat.mul_le_mul_left (n - 1) elem.words_le_bulk
      have grow : (m + 1) * elem.bulk + (n - 1) * elem.bulk ≤ (m + 1) * (n * elem.bulk) := by
        obtain ⟨n, rfl⟩ := Nat.exists_eq_succ_of_ne_zero some.ne'
        rw [Nat.succ_sub_one]
        nlinarith [Nat.zero_le (m * (n * elem.bulk))]
      omega
  | string | bytes | slice elem => exact direct rfl standard packs
  | _ => cases headed

theorem lead_lost (real : data.Real) (headed : t.headed) {j : ℕ}
    (there : data.Holds (32 * j) (packNum ((32 * (j + 1) : ℕ) : ℤ) ++ (zeros 32 ++ rest))) :
    (toGoType t ((32 * j : ℕ) : ℤ) data).result ≠ .ok (t.lead (32 * (j + 1))) := by
  intro ok
  have direct {t : Ty} (dynamic : t.requiresLengthPrefix)
      (ok : (toGoType t ((32 * j : ℕ) : ℤ) data).result = .ok (t.items (32 * (j + 1)))) : False := by
    have next := there.right.left
    rw [length_packNum, ← Nat.mul_succ] at next
    have none := no_items real dynamic there.left next ok
    omega
  induction t with
  | array n elem ih =>
    obtain ⟨-, headed⟩ := headed_array headed
    obtain ⟨-, vs, eq, each⟩ := array_ok ok
    obtain ⟨-, rfl⟩ := Value.array.inj eq
    exact ih headed (eachFrom_head each)
  | string | bytes | slice elem => exact direct rfl ok
  | _ => exact nomatch headed

theorem bad_or_headed (standard : t.Standard) (h : ¬ t.inline) : Bad t ∨ t.headed := by
  induction t with
  | int size => exact .inl (bad_int h)
  | string | bytes | slice elem => exact .inr rfl
  | function => exact standard.elim
  | array n elem ih =>
    rw [Ty.inline] at h
    split_ifs at h with none
    · subst none
      cases elem with
      | array m elem => exact .inl (bad_array_array m elem)
      | _ => exact absurd rfl h
    · rcases ih standard h with bad | headed
      · exact .inl (bad.array none standard)
      · exact .inr (Bool.and_eq_true_iff.2 ⟨by simpa using none, headed⟩)
  | _ => exact absurd rfl h

theorem bad_or_nested (standard : elem.Standard) (h : ¬ (Ty.slice elem).sound) :
    Bad (.slice elem) ∨ elem.requiresLengthPrefix := by
  by_cases array : elem.isArray
  · cases elem with
    | array n elem => exact .inl (bad_slice_array n elem)
    | _ => exact nomatch array
  · have inline : ¬ elem.inline := by simpa [Ty.sound, array] using h
    rcases bad_or_headed standard inline with bad | headed
    · exact .inl bad.slice
    · cases elem with
      | array n elem => exact absurd rfl array
      | string | bytes | slice elem => exact .inr rfl
      | _ => exact nomatch headed

theorem cases_of_not_sound (standard : t.Standard) (h : ¬ t.sound) :
    Bad t ∨ (t.headed ∧ ¬ t.requiresLengthPrefix) ∨ ∃ elem, t = .slice elem ∧
      elem.requiresLengthPrefix := by
  cases t with
  | slice elem =>
    rcases bad_or_nested (show elem.Standard from standard) h with bad | nested
    · exact .inl bad
    · exact .inr (.inr ⟨elem, rfl, nested⟩)
  | string | bytes => exact absurd rfl h
  | _ =>
    rcases bad_or_headed standard h with bad | headed
    · exact .inl bad
    · exact .inr (.inl ⟨headed, Bool.false_ne_true⟩)

/-- The bulk of all types. -/
def bulkOf (ts : List Ty) : ℕ := (ts.map Ty.bulk).sum

theorem bulkOf_append_cons (before after : List Ty) (t : Ty) :
    bulkOf (before ++ t :: after) = bulkOf before + t.bulk + bulkOf after := by
  simp [bulkOf, Nat.add_assoc]

theorem headWords_append_cons (before after : List Ty) (t : Ty) :
    headWords (before ++ t :: after) = headWords before + t.words + headWords after := by
  simp [headWords, Nat.add_assoc]

theorem headWords_le (ts : List Ty) : headWords ts ≤ bulkOf ts :=
  sum_le_sum fun t _ => t.words_le_bulk

theorem prefixed_le (ts : List Ty) : prefixed ts ≤ bulkOf ts := by
  induction ts with
  | nil => exact le_rfl
  | cons t ts ih =>
    have sum : bulkOf (t :: ts) = t.bulk + bulkOf ts := rfl
    have := t.bulk_pos
    rw [prefixed_cons, sum]
    split_ifs <;> omega

theorem load_le (ts : List Ty) : load ts ≤ 64 * bulkOf ts := by
  have := headWords_le ts
  have := prefixed_le ts
  rw [load]
  omega

/-! ### Offsets -/

/-- The words that `Pack` counts for an argument. -/
def Ty.step : Ty → ℕ
  | array n _ => n
  | _ => 1

theorem step_le_bulk (t : Ty) : t.step ≤ t.bulk := by
  cases t with
  | array n elem => exact (le_max_right 1 n).trans (Nat.le_mul_of_pos_right _ elem.bulk_pos)
  | slice elem => exact (Ty.slice elem).bulk_pos
  | _ => exact le_rfl

/-- The words that `inputOffset` counts. -/
def steps (ts : List Ty) : ℕ := (ts.map Ty.step).sum

theorem steps_le (ts : List Ty) : steps ts ≤ bulkOf ts := sum_le_sum fun t _ => step_le_bulk t

theorem inputOffset_eq (small : bulkOf ts < 2 ^ 20) : inputOffset ts = ((32 * steps ts : ℕ) : ℤ) := by
  have step (t : Ty) : offsetStep t = ((32 * t.step : ℕ) : ℤ) := by
    cases t <;> simp [offsetStep, Ty.step]
  have fold (ts : List Ty) (a : ℕ) (h : a + 32 * steps ts < 2 ^ 62) :
      ts.foldl (fun offset t => wrap (offset + offsetStep t)) a = ((a + 32 * steps ts : ℕ) : ℤ) := by
    induction ts generalizing a with
    | nil => rfl
    | cons t ts ih =>
      have sum : steps (t :: ts) = t.step + steps ts := rfl
      rw [sum] at h ⊢
      rw [foldl_cons, step, ← Nat.cast_add, wrap_natCast (by omega), ih _ (by omega)]
      push_cast
      ring
  have := steps_le ts
  have whole := fold ts 0 (by omega)
  rw [Nat.zero_add] at whole
  exact whole

theorem zeroHeads_words (p l : ℕ) (ts : List Ty) (pos : 32 ≤ p)
    (h : p + l + 32 * prefixed ts < 2 ^ 62) : ∃ ws : List Bytes, zeroHeads p l ts = ws.flatten ∧
      ∀ w ∈ ws, w.length = 32 ∧ (value w = 0 ∨ 32 ≤ value w) := by
  induction ts generalizing l with
  | nil => exact ⟨[], rfl, nofun⟩
  | cons t ts ih =>
    rw [prefixed_cons] at h
    rw [zeroHeads]
    split_ifs at h ⊢ with dynamic
    · obtain ⟨ws, flat, each⟩ := ih (l + 32) (by omega)
      refine ⟨packNum (wrap (p + l)) :: ws, by rw [flatten_cons, flat], fun w mem => ?_⟩
      rcases mem_cons.1 mem with eq | mem
      · rw [eq]
        refine ⟨length_packNum _, .inr ?_⟩
        rw [← Nat.cast_add, wrap_natCast (by omega), value_packNum_natCast (by omega)]
        omega
      · exact each w mem
    · obtain ⟨ws, flat, each⟩ := ih l (by omega)
      refine ⟨replicate t.words (zeros 32) ++ ws, ?_, fun w mem => ?_⟩
      · rw [flatten_append, flat, zeros, zeros, flatten_replicate_replicate, Nat.mul_comm]
      · rcases mem_append.1 mem with mem | mem
        · rw [eq_of_mem_replicate mem]
          exact ⟨length_zeros 32, .inl rfl⟩
        · exact each w mem

section Refute

variable {before after : List Ty} {t : Ty} (standard : ∀ s ∈ before ++ t :: after, s.Standard)
  (small : bulkOf (before ++ t :: after) < 2 ^ 20)

include standard small

theorem refute_bad (bad : Bad t) : ¬ RoundTrips (before ++ t :: after) := by
  obtain ⟨v, typed, never⟩ := bad
  refine not_roundTrips standard typed (fun b packs => ?_) fun b data packs _ _ => (never b packs).2 _ _
  have := (never b packs).1
  have := load_le before
  have := load_le after
  rw [bulkOf_append_cons] at small
  omega

theorem refute_headed (headed : t.headed) (static : ¬ t.requiresLengthPrefix) :
    ¬ RoundTrips (before ++ t :: after) := by
  have self := standard_self standard
  have bound := headWords_le before
  rw [bulkOf_append_cons] at small
  refine not_roundTrips standard (typed_lead headed self (32 * (headWords before + 1)))
    (fun b packs => ?_) fun b data packs layout real => ?_
  · obtain ⟨-, -, size⟩ := pack_lead headed self (by omega) packs
    have := load_le before
    have := load_le after
    have := Nat.mul_le_mul (by omega : 32 * (headWords before + 1) + 1 ≤ 2 ^ 26)
      (by omega : t.bulk ≤ 2 ^ 20)
    omega
  · obtain ⟨rest, hb, -⟩ := pack_lead headed self (by omega) packs
    rw [around, if_neg static] at layout
    have there : View.Holds ⟨data, []⟩ (32 * headWords before) b := by
      rw [layout]
      exact View.holds_mk (length_zeroHeads ..)
    rw [hb] at there
    exact lead_lost real headed there

theorem refute_items (dynamic : t.requiresLengthPrefix) (hm : m ≤ 2 ^ 25)
    (lost : ∀ q data, (m + 31) / 32 * 32 ≤ q →
      data = zeroHeads (32 * steps (before ++ t :: after) : ℕ) 0 before ++
        (packNum ((32 * (steps (before ++ t :: after) + prefixed before) : ℕ) : ℤ) ++
        (zeroHeads (32 * steps (before ++ t :: after) : ℕ) (32 * prefixed before + (32 + q)) after ++
        (zeros (32 * prefixed before) ++ ((packNum m ++ zeros q) ++ zeros (32 * prefixed after))))) →
      q < 2 ^ 50 → View.Real ⟨data, []⟩ →
      (toGoType t ((32 * headWords before : ℕ) : ℤ) ⟨data, []⟩).result ≠ .ok (t.items m)) :
    ¬ RoundTrips (before ++ t :: after) := by
  have self := standard_self standard
  have offset := inputOffset_eq small
  have few := steps_le (before ++ t :: after)
  have pointers := prefixed_le before
  rw [bulkOf_append_cons] at small few
  have bound (q : ℕ) (h : q ≤ 32 * (m * t.bulk)) : q < 2 ^ 50 := by
    have := Nat.mul_le_mul hm (by omega : t.bulk ≤ 2 ^ 20 - 1)
    omega
  refine not_roundTrips standard (typed_items dynamic m self) (fun b packs => ?_)
    fun b data packs layout real => ?_
  · obtain ⟨q, -, size, hb⟩ := pack_items dynamic m self packs
    have := bound q size
    have := load_le before
    have := load_le after
    rw [hb, length_append, length_packNum, length_zeros]
    omega
  · obtain ⟨q, enough, size, hb⟩ := pack_items dynamic m self packs
    rw [around, if_pos dynamic, offset, ← Nat.cast_add, ← Nat.mul_add, wrap_natCast (by omega), hb,
      length_append, length_packNum, length_zeros] at layout
    exact lost q data enough layout (bound q size) real

theorem refute_offset_lt (dynamic : t.requiresLengthPrefix) (first : prefixed before = 0)
    (lt : steps (before ++ t :: after) < headWords (before ++ t :: after)) :
    ¬ RoundTrips (before ++ t :: after) := by
  have few := steps_le (before ++ t :: after)
  have later := prefixed_le after
  have one : 1 ≤ steps (before ++ t :: after) := by
    have : t.step = 1 := by cases t <;> first | rfl | exact nomatch dynamic
    simp [steps, this]
    omega
  refine refute_items standard small dynamic (m := 1) (by norm_num)
    fun q data enough layout size real ok => ?_
  rw [first, Nat.mul_zero, Nat.add_zero, Nat.zero_add] at layout
  rw [bulkOf_append_cons] at small few
  obtain ⟨ws, flat, each⟩ :=
    zeroHeads_words (32 * steps (before ++ t :: after)) 0 before (by omega) (by omega)
  obtain ⟨ws', flat', each'⟩ :=
    zeroHeads_words (32 * steps (before ++ t :: after)) (32 + q) after (by omega) (by omega)
  set pointer := packNum ((32 * steps (before ++ t :: after) : ℕ) : ℤ) with hpointer
  have words : ∀ w ∈ ws ++ pointer :: ws', w.length = 32 ∧ (value w = 0 ∨ 32 ≤ value w) := by
    intro w mem
    rcases mem_append.1 mem with mem | mem
    · exact each w mem
    · rcases mem_cons.1 mem with eq | mem
      · rw [eq, hpointer, value_packNum_natCast (by omega)]
        exact ⟨length_packNum _, .inr (by omega)⟩
      · exact each' w mem
  have heads : (ws ++ pointer :: ws').flatten.length = 32 * headWords (before ++ t :: after) := by
    rw [flatten_append, flatten_cons, ← flat, ← flat', headWords_append_cons, words_of_prefixed dynamic]
    simp only [length_append, length_zeroHeads, hpointer, length_packNum]
    ring
  have count := length_flatten fun w mem => (words w mem).1
  have inside : steps (before ++ t :: after) < (ws ++ pointer :: ws').length := by omega
  have whole : View.Holds ⟨data, []⟩ 0 (ws ++ pointer :: ws').flatten := by
    refine ⟨[], packNum ((1 : ℕ) : ℤ) ++ zeros q ++ zeros (32 * prefixed after), ?_, rfl⟩
    rw [nil_append, layout, flat, flat', flatten_append, flatten_cons, zeros, replicate_zero,
      nil_append]
    simp only [append_assoc]
  have there := whole.flatten (fun w mem => (words w mem).1) (getElem?_eq_getElem inside)
  rw [Nat.zero_add] at there
  have here : View.Holds ⟨data, []⟩ (32 * headWords before) pointer := by
    rw [layout]
    exact View.holds_mk (length_zeroHeads ..)
  have value := count_of_ok real dynamic here there (words _ (getElem_mem inside)).1 ok
  rw [count_items dynamic] at value
  rcases (words _ (getElem_mem inside)).2 with zero | large <;> omega

theorem refute_offset_gt (dynamic : t.requiresLengthPrefix) (first : prefixed before = 0)
    (gt : headWords (before ++ t :: after) < steps (before ++ t :: after)) :
    ¬ RoundTrips (before ++ t :: after) := by
  have few := steps_le (before ++ t :: after)
  obtain ⟨d, hd⟩ := Nat.exists_eq_add_of_lt gt
  refine refute_items standard small dynamic (m := 32 * (d + 1)) (by omega)
    fun q data enough layout size real ok => ?_
  rw [first, Nat.mul_zero, Nat.add_zero, Nat.zero_add] at layout
  have here : View.Holds ⟨data, []⟩ (32 * headWords before)
      (packNum ((32 * steps (before ++ t :: after) : ℕ) : ℤ)) := by
    rw [layout]
    exact View.holds_mk (length_zeroHeads ..)
  have split : zeros q = zeros (32 * d) ++ (zeros 32 ++ zeros (q - 32 * (d + 1))) := by
    rw [zeros_split (by omega : 32 * d ≤ q), zeros_split (by omega : 32 ≤ q - 32 * d), Nat.sub_sub,
      Nat.mul_succ]
  have there : View.Holds ⟨data, []⟩ (32 * steps (before ++ t :: after)) (zeros 32) := by
    refine ⟨zeroHeads (32 * steps (before ++ t :: after) : ℕ) 0 before ++
      (packNum ((32 * steps (before ++ t :: after) : ℕ) : ℤ) ++
      (zeroHeads (32 * steps (before ++ t :: after) : ℕ) (32 + q) after ++
      (packNum ((32 * (d + 1) : ℕ) : ℤ) ++ zeros (32 * d)))),
      zeros (q - 32 * (d + 1)) ++ zeros (32 * prefixed after), ?_, ?_⟩
    · rw [layout, split, zeros, replicate_zero, nil_append]
      simp only [append_assoc]
    · simp only [length_append, length_zeroHeads, length_packNum, length_zeros]
      rw [hd, headWords_append_cons, words_of_prefixed dynamic]
      ring
  have none := no_items real dynamic here there ok
  omega

end Refute

theorem holds_second {a c d x : Bytes} (h : a.length + (b.length + (c.length + d.length)) = i) :
    View.Holds ⟨a ++ (b ++ (c ++ (d ++ (x ++ rest)))), []⟩ i x :=
  ⟨a ++ (b ++ (c ++ d)), rest, by simp only [append_assoc], by simpa only [length_append] using h⟩

theorem refute_nested (standard : ∀ s ∈ before ++ Ty.slice elem :: after, s.Standard)
    (small : bulkOf (before ++ Ty.slice elem :: after) < 2 ^ 20) (nested : elem.requiresLengthPrefix)
    (aligned : steps (before ++ Ty.slice elem :: after) =
      headWords (before ++ Ty.slice elem :: after)) :
    ¬ RoundTrips (before ++ Ty.slice elem :: after) := by
  have self : elem.Standard := show (Ty.slice elem).Standard from standard_self standard
  have offset := inputOffset_eq small
  rw [aligned] at offset
  have heads := headWords_le (before ++ Ty.slice elem :: after)
  have pointers := prefixed_le before
  rw [bulkOf_append_cons] at small heads
  have bulk : (Ty.slice elem).bulk = 2 + elem.bulk := rfl
  -- The element stands at word `s`, and the offset in it leads to the next one.
  obtain ⟨s, hs⟩ : ∃ s, s = headWords (before ++ Ty.slice elem :: after) + prefixed before + 1 :=
    ⟨_, rfl⟩
  have pieces {b : Bytes}
      (packs : pack (.slice elem) (.slice elem.kind [elem.items (32 * (s + 1))]) = .ok b) :
      ∃ q, 32 ≤ q ∧ q < 2 ^ 55 ∧ b = packNum ((1 : ℕ) : ℤ) ++
        (packNum ((32 * (s + 1) : ℕ) : ℤ) ++ zeros q) := by
    obtain ⟨piece, first, hb⟩ := pack_single packs
    obtain ⟨q, enough, size, hpiece⟩ := pack_items nested (32 * (s + 1)) self first
    have := Nat.mul_le_mul (by omega : 32 * (s + 1) ≤ 2 ^ 27) (by omega : elem.bulk ≤ 2 ^ 20)
    have long : 32 - piece.length = 0 := by
      rw [hpiece, length_append, length_packNum]
      omega
    refine ⟨q, by omega, by omega, ?_⟩
    rw [hb, rightPadBytes, long, hpiece, replicate_zero, append_nil]
  have typed : (Ty.slice elem).Typed (.slice elem.kind [elem.items (32 * (s + 1))]) := by
    refine ⟨rfl, fun v mem => ?_⟩
    rw [mem_singleton.1 mem]
    exact typed_items nested _ self
  refine not_roundTrips standard typed (fun b packs => ?_) fun b data packs layout real ok => ?_
  · obtain ⟨q, -, size, hb⟩ := pieces packs
    have := load_le before
    have := load_le after
    rw [hb]
    simp only [length_append, length_packNum, length_zeros]
    omega
  · obtain ⟨q, enough, size, hb⟩ := pieces packs
    have dynamic : (Ty.slice elem).requiresLengthPrefix := rfl
    rw [around, if_pos dynamic, offset, ← Nat.cast_add, ← Nat.mul_add, wrap_natCast (by omega), hb]
      at layout
    have position : headWords (before ++ Ty.slice elem :: after) + prefixed before = s - 1 := by omega
    rw [position] at layout
    have pointer : View.Holds ⟨data, []⟩ (32 * headWords before)
        (packNum ((32 * (s - 1) : ℕ) : ℤ)) := by
      rw [layout]
      exact View.holds_mk (length_zeroHeads ..)
    have there : View.Holds ⟨data, []⟩ (32 * (s - 1))
        (packNum ((1 : ℕ) : ℤ) ++ (packNum ((32 * (s + 1) : ℕ) : ℤ) ++ zeros q)) := by
      rw [layout]
      refine holds_second ?_
      rw [length_zeroHeads, length_packNum, length_zeroHeads, length_zeros]
      rw [headWords_append_cons, words_of_prefixed dynamic] at hs
      omega
    obtain ⟨-, spare, yields⟩ := pointer.word real (length_packNum _)
    obtain ⟨begin, length, vs, prefix', eq, each⟩ := slice_ok ok
    obtain ⟨-, rfl⟩ := Value.slice.inj eq
    have self' : value (packNum ((32 * (s - 1) : ℕ) : ℤ)) = 32 * (s - 1) :=
      value_packNum_natCast (by omega)
    obtain ⟨hbegin, -⟩ :=
      lengthPrefix_of_holds yields (length_packNum _) (by rw [self']; exact there.left) prefix'
    have first := eachFrom_head each
    have start : begin = ((32 * s : ℕ) : ℤ) := by
      rw [hbegin, self']
      omega
    rw [start] at first
    have element := there.right
    have behind : 32 * (s - 1) + 32 = 32 * s := by omega
    rw [length_packNum, behind, zeros_split enough] at element
    have next := element.right.left
    rw [length_packNum, ← Nat.mul_succ] at next
    have none := no_items real nested element.left next first
    omega

/-! ### Room -/

theorem room_of_ok (real : output.Real) (small : t.bulk < 2 ^ 50)
    (start : index ≤ output.bytes.length) (ok : (toGoType t index output).result = .ok v) :
    index + 32 * t.room ≤ output.bytes.length := by
  have inside := index_within real start (not_short ok)
  induction t generalizing index v with
  | array n elem ih =>
    rw [Ty.room]
    split_ifs with none
    · exact inside
    · have pos : 0 < n := Nat.pos_of_ne_zero none
      rw [Ty.bulk, max_eq_right pos] at small
      have few : n ≤ n * elem.bulk := Nat.le_mul_of_pos_right _ elem.bulk_pos
      have less : elem.bulk ≤ n * elem.bulk := Nat.le_mul_of_pos_left _ pos
      obtain ⟨counted, vs, -, each⟩ := array_ok ok
      obtain ⟨-, length, at'⟩ := eachFrom_get real (fun i hi v h => within_of_ok real hi h) start each
      obtain ⟨start', last⟩ := at' (n - 1) (by rw [length]; exact Nat.sub_lt pos one_pos)
      have reached := ih (by omega) start' last (index_within real start' (not_short last))
      have whole : wrap ((index : ℤ) + wrap (32 * n)) = ((index + 32 * n : ℕ) : ℤ) := by
        unfold View.Real at real
        rw [wrap_of_lt (x := 32 * n) (by positivity) (by omega), wrap_of_lt (by positivity) (by omega)]
        rfl
      rw [View.len, whole] at counted
      rcases max_cases n ((n - 1) * elem.words + elem.room) with ⟨eq, -⟩ | ⟨eq, -⟩ <;> rw [eq] <;> omega
  | _ => simpa [Ty.room] using inside

theorem exists_not_roomy {total : ℕ} (h : ¬ roomy total index ts) :
    ∃ before t after, ts = before ++ t :: after ∧ total < index + headWords before + t.room := by
  induction ts generalizing index with
  | nil => exact absurd rfl h
  | cons t ts ih =>
    by_cases enough : index + t.room ≤ total
    · have rest : ¬ roomy total (index + t.words) ts := by
        intro room
        exact h (Bool.and_eq_true_iff.2 ⟨decide_eq_true enough, room⟩)
      obtain ⟨before, t', after, rfl, short⟩ := ih rest
      refine ⟨t :: before, t', after, rfl, ?_⟩
      have sum : headWords (t :: before) = t.words + headWords before := rfl
      omega
    · exact ⟨[], t, ts, rfl, by simp [headWords]; omega⟩

theorem refute_room (standard : ∀ s ∈ ts, s.Standard) (small : bulkOf ts < 2 ^ 20)
    (h : ¬ roomy (headWords ts + prefixed ts) 0 ts) : ¬ RoundTrips ts := by
  obtain ⟨before, t, after, rfl, short⟩ := exists_not_roomy h
  have self := standard_self standard
  rw [bulkOf_append_cons] at small
  have words := t.words_le_bulk
  have loadBefore := load_le before
  have loadAfter := load_le after
  refine not_roundTrips standard (Ty.typed_zero self) (fun b packs => ?_)
    fun b data packs layout real ok => ?_
  · rw [pack_zero self packs, length_zeros]
    omega
  · have hb := pack_zero self packs
    have length : data.length =
        32 * (headWords (before ++ t :: after) + prefixed (before ++ t :: after)) := by
      have pointers : prefixed (before ++ t :: after) = prefixed before + prefixed (t :: after) :=
        countP_append ..
      rw [prefixed_cons] at pointers
      rw [headWords_append_cons, pointers, layout, around, hb]
      split_ifs with dynamic
      · rw [words_of_prefixed dynamic]
        simp only [length_append, length_zeroHeads, length_packNum, length_zeros]
        ring
      · simp only [length_append, length_zeroHeads, length_zeros]
        ring
    have start : 32 * headWords before ≤ data.length := by
      rw [length, headWords_append_cons]
      omega
    have reached := room_of_ok real (by omega) start ok
    simp only [length] at reached
    omega

section Together

variable {ts : List Ty} (standard : ∀ t ∈ ts, t.Standard) (small : bulkOf ts < 2 ^ 20)
  (trips : RoundTrips ts)

include standard small trips

theorem aligned_of_roundTrips (dynamic : ∃ t ∈ ts, t.requiresLengthPrefix) :
    steps ts = headWords ts := by
  obtain ⟨before, t, after, rfl, none, dynamic⟩ := exists_first dynamic
  have first : prefixed before = 0 := countP_eq_zero.2 none
  rcases lt_trichotomy (steps (before ++ t :: after)) (headWords (before ++ t :: after))
    with lt | eq | gt
  · exact absurd trips (refute_offset_lt standard small dynamic first lt)
  · exact eq
  · exact absurd trips (refute_offset_gt standard small dynamic first gt)

theorem sound_of_roundTrips {t : Ty} (mem : t ∈ ts) : t.sound := by
  by_contra unsound
  obtain ⟨before, after, rfl⟩ := append_of_mem mem
  rcases cases_of_not_sound (standard t mem) unsound with bad | ⟨headed, static⟩ | ⟨elem, rfl, nested⟩
  · exact refute_bad standard small bad trips
  · exact refute_headed standard small headed static trips
  · have aligned := aligned_of_roundTrips standard small trips ⟨_, mem, rfl⟩
    exact refute_nested standard small nested aligned trips

theorem exchangeable_of_roundTrips : exchangeable ts := by
  refine Bool.and_eq_true_iff.2 ⟨Bool.and_eq_true_iff.2 ⟨?_, ?_⟩, ?_⟩
  · exact all_eq_true.2 fun t mem => sound_of_roundTrips standard small trips mem
  · by_contra short
    exact refute_room standard small short trips
  · by_cases dynamic : ∃ t ∈ ts, t.requiresLengthPrefix
    · have aligned := aligned_of_roundTrips standard small trips dynamic
      rw [inputOffset_eq small, aligned]
      simp
    · have none : ts.any Ty.requiresLengthPrefix = false := by simpa using dynamic
      rw [none]
      rfl

end Together

/-- The lists of types whose values come back, as far as the values that refute the others fit in
memory. -/
theorem roundTrips_iff_exchangeable {ts : List Ty} (standard : ∀ t ∈ ts, t.Standard) :
    (exchangeable ts → RoundTrips ts) ∧ (bulkOf ts < 2 ^ 20 → RoundTrips ts → exchangeable ts) :=
  ⟨roundTrips_of_exchangeable standard,
    fun small trips => exchangeable_of_roundTrips standard small trips⟩

theorem plain_arguments_come_back :
    RoundTrips [.uint 256, .slice (.int 8), .array 3 .bool, .string] := by
  refine (roundTrips_iff_exchangeable ?_).1 (by decide)
  simp [Ty.Standard]

/-- A negative number comes back as a large one, and the element of a `string[]` as another
string. -/
theorem values_lost : (packArguments [.int 256] [.num .ptr (-1)] = .ok (replicate 32 255) ∧
      (unpackValues [⟨.int 256, false⟩] ⟨replicate 32 255, []⟩).result =
        .ok [.num .ptr (2 ^ 256 - 1)]) ∧
    (packArguments [.slice .string] [.slice .string [.string []]] =
      .ok (packNum 32 ++ packNum 1 ++ packNum 0) ∧
      (unpackValues [⟨.slice .string, false⟩] ⟨packNum 32 ++ packNum 1 ++ packNum 0, []⟩).result =
        .ok [.slice .string [.string (packNum 1)]]) :=
  ⟨⟨rfl, rfl⟩, rfl, rfl⟩

end JuChain.Abi
