import JuChain.Abi.Positions

/-!
# Decoding data that is known
-/

namespace JuChain.Abi

open BigEndian Decode List

theorem exists_first {α : Type} {p : α → Prop} {l : List α} (h : ∃ a ∈ l, p a) :
    ∃ before a after, l = before ++ a :: after ∧ (∀ b ∈ before, ¬ p b) ∧ p a := by
  induction l with
  | nil => exact absurd h (by simp)
  | cons a l ih =>
    by_cases here : p a
    · exact ⟨[], a, l, rfl, fun _ hb => absurd hb not_mem_nil, here⟩
    · obtain ⟨a', mem, later⟩ := h
      have rest : ∃ a ∈ l, p a := by
        rcases mem_cons.1 mem with rfl | mem
        · exact absurd later here
        · exact ⟨a', mem, later⟩
      obtain ⟨before, a', after, rfl, none, found⟩ := ih rest
      refine ⟨a :: before, a', after, rfl, fun b hb => ?_, found⟩
      rcases mem_cons.1 hb with rfl | hb
      · exact here
      · exact none b hb

/-- The bytes `b` stand at position `i`. -/
def View.Holds (data : View) (i : ℕ) (b : Bytes) : Prop :=
  ∃ front rest, data.bytes = front ++ b ++ rest ∧ front.length = i

section Holds

variable {data : View} {i l : ℕ} {a b : Bytes} {bs : List Bytes}

theorem View.Holds.le (h : data.Holds i b) : i + b.length ≤ data.bytes.length := by
  obtain ⟨front, rest, bytes, rfl⟩ := h
  simp [bytes]

theorem View.holds_mk {front b rest spare : Bytes} (h : front.length = i) :
    View.Holds ⟨front ++ (b ++ rest), spare⟩ i b := ⟨front, rest, by rw [append_assoc], h⟩

theorem View.Holds.left (h : data.Holds i (a ++ b)) : data.Holds i a := by
  obtain ⟨front, rest, bytes, len⟩ := h
  exact ⟨front, b ++ rest, by simp [bytes], len⟩

theorem View.Holds.right (h : data.Holds i (a ++ b)) : data.Holds (i + a.length) b := by
  obtain ⟨front, rest, bytes, len⟩ := h
  exact ⟨front ++ a, rest, by simp [bytes], by simp [len]⟩

theorem length_flatten (len : ∀ b ∈ bs, b.length = l) : bs.flatten.length = l * bs.length := by
  induction bs with
  | nil => rfl
  | cons b bs ih =>
    rw [flatten_cons, length_append, len b (mem_cons_self ..),
      ih fun b h => len b (mem_cons_of_mem _ h), length_cons]
    ring

theorem View.Holds.flatten (h : data.Holds i bs.flatten)
    (len : ∀ b ∈ bs, b.length = l) {k : ℕ} (hb : bs[k]? = some b) : data.Holds (i + l * k) b := by
  obtain ⟨inside, rfl⟩ := List.getElem?_eq_some_iff.1 hb
  have whole : bs.take k ++ bs[k] :: bs.drop (k + 1) = bs := by
    rw [← List.drop_eq_getElem_cons inside, List.take_append_drop]
  have before : (bs.take k).flatten.length = l * k := by
    rw [length_flatten fun b h => len b (List.mem_of_mem_take h), List.length_take_of_le inside.le]
  rw [← whole, List.flatten_append, List.flatten_cons] at h
  rw [← before]
  exact h.right.left

theorem View.Holds.slice (h : data.Holds i b) :
    ∃ spare, (data.slice i (i + b.length : ℕ)).Yields ⟨b, spare⟩ := by
  have whole := slice_yields data i (i + b.length) (by omega) h.le
  obtain ⟨front, rest, bytes, rfl⟩ := h
  rw [bytes, take_left' (by simp), drop_left' rfl] at whole
  exact ⟨_, whole⟩

theorem View.Holds.word (real : data.Real) (h : data.Holds i b) (len : b.length = 32) :
    ¬ data.len < wrap ((i : ℤ) + 32) ∧
      ∃ spare, (data.slice i (wrap (i + 32))).Yields ⟨b, spare⟩ := by
  have inside := h.le
  have whole : wrap ((i : ℤ) + 32) = ((i + 32 : ℕ) : ℤ) := by exact_mod_cast real.wrap_eq (len ▸ inside)
  rw [whole]
  refine ⟨?_, ?_⟩
  · rw [View.len]
    omega
  · rw [← len]
    exact h.slice

theorem View.Holds.contents (real : data.Real) (h : data.Holds i b) :
    ∃ spare, (data.slice i (wrap (i + b.length))).Yields ⟨b, spare⟩ := by
  rw [← Nat.cast_add, real.wrap_eq h.le]
  exact h.slice

end Holds

theorem fixed_zero (w : ℕ) : fixed w 0 = List.replicate w 0 := by
  induction w with
  | zero => rfl
  | succ w ih => rw [fixed, Nat.zero_div, ih, replicate_succ']; rfl

theorem fixed_of_lt {n : ℕ} (h : n < 256) (w : ℕ) :
    fixed (w + 1) n = List.replicate w 0 ++ [UInt8.ofNat n] := by
  rw [fixed, Nat.div_eq_of_lt h, Nat.mod_eq_of_lt h, fixed_zero]

section Words

variable {word : View}

theorem readBool_yields {b : Bool} (h : word.bytes = fixed 32 b.toNat) :
    (readBool word).Yields (.bool b) := by
  have bytes : word.bytes = replicate 31 0 ++ [UInt8.ofNat b.toNat] := by
    rw [h, fixed_of_lt (by cases b <;> decide)]
  have high := slice_yields word 0 31 (by norm_num) (by simp [bytes])
  have low := slice_yields word 31 32 (by norm_num) (by simp [bytes])
  rw [bytes, take_left' (by simp), drop_zero] at high
  rw [bytes, take_of_length_le (by simp), drop_left' (by simp)] at low
  refine high.bind ?_
  refine low.bind ?_
  cases b <;> exact yields_pure _

theorem readFixedBytes_yields (isWord : word.IsWord) {size : ℕ} (h : size ≤ 32) :
    (readFixedBytes size word).Yields (.byteArray (word.bytes.take size)) := by
  have front := slice_yields word 0 size (Nat.zero_le _) (by rw [isWord]; exact h)
  exact front.bind (yields_pure _)

end Words

section Calls

variable {output : View} {index : ℤ} {word : View} {elem : Ty} {begin length : ℤ}

section

variable (short : ¬ output.len < wrap (index + 32))
include short

theorem toGoType_array (yields : (output.slice index (wrap (index + 32))).Yields word) (n : ℕ) :
    toGoType (.array n elem) index output =
      forEachUnpack (fun i => toGoType elem i output) output index n (wrap (32 * elem.words))
        elem.width none >>= fun vs => pure (.array elem.kind vs) := by
  rw [toGoType, if_neg short, yields.bind_eq, getFullElemSize_eq]

theorem toGoType_string (pointer : (lengthPrefixPointsTo index output).Yields (begin, length)) :
    toGoType .string index output =
      output.slice begin (wrap (begin + length)) >>= fun contents => pure (.string contents.bytes) := by
  rw [toGoType, if_neg short, pointer.bind_eq]

theorem toGoType_bytes (pointer : (lengthPrefixPointsTo index output).Yields (begin, length)) :
    toGoType .bytes index output =
      output.slice begin (wrap (begin + length)) >>= fun contents => pure (.bytes contents.bytes) := by
  rw [toGoType, if_neg short, pointer.bind_eq]

theorem toGoType_slice (pointer : (lengthPrefixPointsTo index output).Yields (begin, length)) :
    toGoType (.slice elem) index output =
      forEachUnpack (fun i => toGoType elem i output) output begin length 32 elem.width none >>=
        fun vs => pure (.slice elem.kind vs) := by
  rw [toGoType, if_neg short, pointer.bind_eq]

end

theorem lengthPrefix_yields (real : output.Real)
    (yields : (output.slice index (wrap (index + 32))).Yields word) {l : Bytes} (len : l.length = 32)
    (there : output.Holds (value word.bytes) l)
    (room : value word.bytes + 32 + value l ≤ output.bytes.length) :
    (lengthPrefixPointsTo index output).Yields (((value word.bytes + 32 : ℕ) : ℤ), (value l : ℤ)) := by
  obtain ⟨spare, lengthWord⟩ := there.slice
  rw [len] at lengthWord
  have back : ((value word.bytes : ℤ) + 32 - 32) = (value word.bytes : ℕ) := by ring
  have stop : ((value word.bytes : ℤ) + 32) = ((value word.bytes + 32 : ℕ) : ℤ) := by push_cast; rfl
  unfold View.Real at real
  rw [lengthPrefixPointsTo, yields.bind_eq]
  rw [if_neg (by rw [View.len]; omega), if_neg (by omega), back, stop, lengthWord.bind_eq]
  dsimp only
  rw [if_neg (by omega), if_neg (by rw [View.len]; omega)]
  exact yields_pure _

theorem lengthPrefix_of_holds {l : Bytes}
    (yields : (output.slice index (wrap (index + 32))).Yields word) (len : l.length = 32)
    (there : output.Holds (value word.bytes) l)
    (ok : (lengthPrefixPointsTo index output).result = .ok (begin, length)) :
    begin = value word.bytes + 32 ∧ length = value l := by
  obtain ⟨spare, lengthWord⟩ := there.slice
  rw [len, Nat.cast_add, Nat.cast_ofNat] at lengthWord
  rw [lengthPrefixPointsTo, yields.bind_eq] at ok
  dsimp only at ok
  split_ifs at ok
  · exact (fail_ne_ok _ _ ok).elim
  · exact (fail_ne_ok _ _ ok).elim
  rw [add_sub_cancel_right, lengthWord.bind_eq] at ok
  split_ifs at ok
  · exact (fail_ne_ok _ _ ok).elim
  · exact (fail_ne_ok _ _ ok).elim
  obtain ⟨rfl, rfl⟩ := Prod.mk.inj (Except.ok.inj ok)
  exact ⟨rfl, rfl⟩

end Calls

section Elements

variable {output : View} {decode : ℤ → Decode Value} {w start : ℕ} {vs : List Value}

theorem eachFrom_yields (real : output.Real)
    (each : ∀ k (h : k < vs.length), (decode ((start + 32 * (k * w) : ℕ) : ℤ)).Yields (vs.get ⟨k, h⟩))
    (room : start + 32 * (vs.length * w) ≤ output.bytes.length) :
    (eachFrom decode (wrap (32 * w)) vs.length start).Yields vs := by
  induction vs generalizing start with
  | nil => exact yields_pure _
  | cons v vs ih =>
    have first := each 0 (by simp)
    rw [Nat.zero_mul, Nat.mul_zero, Nat.add_zero] at first
    have split : (vs.length + 1) * w = vs.length * w + w := Nat.succ_mul _ w
    rw [length_cons] at room
    refine first.bind ?_
    rw [wrap_next real (by omega)]
    refine (ih (fun k h => ?_) (by omega)).bind (yields_pure _)
    have later := each (k + 1) (by simpa using h)
    have position : start + 32 * ((k + 1) * w) = start + 32 * w + 32 * (k * w) := by ring
    rw [position] at later
    exact later

theorem forEachUnpack_yields (real : output.Real)
    (each : ∀ k (h : k < vs.length), (decode ((start + 32 * (k * w) : ℕ) : ℤ)).Yields (vs.get ⟨k, h⟩))
    (room : start + 32 * (vs.length * w) ≤ output.bytes.length)
    (counted : start + 32 * vs.length ≤ output.bytes.length) (width : ℕ) :
    (forEachUnpack decode output start vs.length (wrap (32 * w)) width none).Yields vs := by
  rw [forEachUnpack, if_neg (by omega), wrap_next real counted, if_neg (by rw [View.len]; omega),
    if_pos Option.all_none, Int.toNat_natCast]
  exact eachFrom_yields real each room

end Elements

section Values

variable {output : View} {index : ℤ} {word : View} {start : ℕ} {contents : Bytes} {elem : Ty}
  {vs : List Value}

theorem string_yields (real : output.Real) (short : ¬ output.len < wrap (index + 32))
    (pointer : (lengthPrefixPointsTo index output).Yields (↑start, ↑contents.length))
    (there : output.Holds start contents) :
    (toGoType .string index output).Yields (.string contents) := by
  obtain ⟨spare, yields⟩ := there.contents real
  rw [toGoType_string short pointer]
  exact yields.bind (yields_pure _)

theorem bytes_yields (real : output.Real) (short : ¬ output.len < wrap (index + 32))
    (pointer : (lengthPrefixPointsTo index output).Yields (↑start, ↑contents.length))
    (there : output.Holds start contents) :
    (toGoType .bytes index output).Yields (.bytes contents) := by
  obtain ⟨spare, yields⟩ := there.contents real
  rw [toGoType_bytes short pointer]
  exact yields.bind (yields_pure _)

theorem slice_value_yields (real : output.Real) (short : ¬ output.len < wrap (index + 32))
    (pointer : (lengthPrefixPointsTo index output).Yields (↑start, ↑vs.length))
    (each : ∀ k (h : k < vs.length),
      (toGoType elem ((start + 32 * k : ℕ) : ℤ) output).Yields (vs.get ⟨k, h⟩))
    (room : start + 32 * vs.length ≤ output.bytes.length) :
    (toGoType (.slice elem) index output).Yields (.slice elem.kind vs) := by
  rw [toGoType_slice short pointer, stride_eq]
  refine Yields.bind (forEachUnpack_yields real (fun k h => ?_) ?_ room _) (yields_pure _)
  · rw [Nat.mul_one]
    exact each k h
  · rw [Nat.mul_one]
    exact room

theorem array_value_yields (real : output.Real) (short : ¬ output.len < wrap ((start : ℤ) + 32))
    (yields : (output.slice start (wrap (start + 32))).Yields word) (each : ∀ k (h : k < vs.length),
      (toGoType elem ((start + 32 * (k * elem.words) : ℕ) : ℤ) output).Yields (vs.get ⟨k, h⟩))
    (room : start + 32 * (vs.length * elem.words) ≤ output.bytes.length)
    (counted : start + 32 * vs.length ≤ output.bytes.length) :
    (toGoType (.array vs.length elem) start output).Yields (.array elem.kind vs) := by
  rw [toGoType_array short yields]
  exact (forEachUnpack_yields real each room counted _).bind (yields_pure _)

end Values

end JuChain.Abi
