import Mathlib
import JuChain.Core.Types

/-!
# Run-length coding

`common/compre/rle/read_write.go`.  A run of zero bytes is written as the token and its length plus
two.  For runs of 251 to 253 zeros that is a code with another meaning (`decompress_compress_iff`).
-/

namespace JuChain.Rle

open List UInt8

def token : UInt8 := 0xfe

/-- The code of the hash of no bytes. -/
def emptyShaToken : UInt8 := 0xfd

/-- The code of the hash of an empty list. -/
def emptyListShaToken : UInt8 := 0xfe

/-- The code of the token itself. -/
def tokenToken : UInt8 := 0xff

/-- The hash of no bytes. -/
def empty : Bytes :=
  [0xc5, 0xd2, 0x46, 0x01, 0x86, 0xf7, 0x23, 0x3c, 0x92, 0x7e, 0x7d, 0xb2, 0xdc, 0xc7, 0x03, 0xc0,
   0xe5, 0x00, 0xb6, 0x53, 0xca, 0x82, 0x27, 0x3b, 0x7b, 0xfa, 0xd8, 0x04, 0x5d, 0x85, 0xa4, 0x70]

/-- The hash of an empty list. -/
def emptyList : Bytes :=
  [0x56, 0xe8, 0x1f, 0x17, 0x1b, 0xcc, 0x55, 0xa6, 0xff, 0x83, 0x45, 0xe6, 0x92, 0xc0, 0xf8, 0x6e,
   0x5b, 0x48, 0xe0, 0x1b, 0x99, 0x6c, 0xad, 0xc0, 0x01, 0x62, 0x2f, 0xb5, 0xe3, 0x63, 0xb4, 0x21]

/-- The error of `Decompress`. -/
inductive Err where
  | tokenWithoutProceedingBytes
  deriving DecidableEq

/-- The bytes that a code stands for. -/
def expand (code : UInt8) : Bytes :=
  if code = emptyShaToken then empty
  else if code = emptyListShaToken then emptyList
  else if code = tokenToken then [token]
  else List.replicate (code - 2).toNat 0

def decompress : Bytes → Except Err Bytes
  | [] => .ok []
  | [b] => if b = token then .error .tokenWithoutProceedingBytes else .ok [b]
  | b :: c :: rest =>
    if b = token then (decompress rest).map (expand c ++ ·)
    else (decompress (c :: rest)).map (b :: ·)

/-- The zeros at the front, up to a limit. -/
def countZeros : ℕ → Bytes → ℕ
  | left + 1, b :: rest => if b ≠ 0 then 0 else countZeros left rest + 1
  | _, _ => 0

/-- `compressChunk` on `b :: rest`: what is written, for how much of the input. -/
def compressChunk (b : UInt8) (rest : Bytes) : Bytes × ℕ :=
  if b = token then ([token, tokenToken], 1)
  else if b = 0 ∧ rest.head? = some 0 then
    -- the loop runs while j is at most 254, so it stops at 255
    let j := countZeros 255 (b :: rest)
    ([token, UInt8.ofNat (j + 2)], j)
  else if 32 ≤ (b :: rest).length ∧ (b :: rest).take 32 = empty then ([token, emptyShaToken], 32)
  else if 32 ≤ (b :: rest).length ∧
    (b :: rest).take 32 = emptyList then ([token, emptyListShaToken], 32)
  else ([b], 1)

theorem compressChunk_pos (b : UInt8) (rest : Bytes) : 0 < (compressChunk b rest).2 := by
  unfold compressChunk
  split_ifs with _ hz
  · exact Nat.one_pos
  · simp [countZeros, hz.1]
  all_goals norm_num

def compress : Bytes → Bytes
  | [] => []
  | b :: rest => (compressChunk b rest).1 ++ compress ((b :: rest).drop (compressChunk b rest).2)
termination_by dat => dat.length
decreasing_by
  have := compressChunk_pos b rest
  rw [List.length_drop, List.length_cons]
  omega

/-- The chunk of a zero run with one of these lengths reads as something else. -/
def Misread (n : ℕ) : Prop := n % 255 = 251 ∨ n % 255 = 252 ∨ n % 255 = 253

instance decidableMisread : DecidablePred Misread := fun n => by unfold Misread; infer_instance

theorem decompress_token (c : UInt8) (rest : Bytes) :
    decompress (token :: c :: rest) = (decompress rest).map (expand c ++ ·) := by
  rw [decompress, if_pos rfl]

variable {b : UInt8} {n j : ℕ}

theorem decompress_of_ne_token (hb : b ≠ token) (rest : Bytes) :
    decompress (b :: rest) = (decompress rest).map (b :: ·) := by
  cases rest with
  | nil => exact if_neg hb
  | cons c rest => rw [decompress, if_neg hb]

theorem toNat_code (lo : 2 ≤ j) (hi : j ≤ 255) : (UInt8.ofNat (j + 2) - 2).toNat = j := by
  rw [UInt8.toNat_sub, UInt8.toNat_ofNat']
  simp only [UInt8.toNat_ofNat]
  omega

theorem code_ne {k : ℕ} (hj : j ≤ 255) (hk : 2 ≤ k) (hk' : k < 256) (ne : j + 2 ≠ k) :
    UInt8.ofNat (j + 2) ≠ UInt8.ofNat k := by
  intro heq
  rw [← UInt8.toNat_inj, UInt8.toNat_ofNat', UInt8.toNat_ofNat'] at heq
  omega

theorem expand_code (lo : 2 ≤ j) (hi : j ≤ 255) (h : ¬ Misread j) :
    expand (ofNat (j + 2)) = List.replicate j 0 := by
  simp only [Misread, not_or] at h
  have sha : ofNat (j + 2) ≠ emptyShaToken := code_ne (k := 253) hi (by omega) (by omega) (by omega)
  have list : ofNat (j + 2) ≠ emptyListShaToken :=
    code_ne (k := 254) hi (by omega) (by omega) (by omega)
  have tok : ofNat (j + 2) ≠ tokenToken := code_ne (k := 255) hi (by omega) (by omega) (by omega)
  rw [expand, if_neg sha, if_neg list, if_neg tok, toNat_code lo hi]

theorem length_expand_code (hi : j ≤ 255) (h : Misread j) : (expand (ofNat (j + 2))).length < j := by
  have : j = 251 ∨ j = 252 ∨ j = 253 := by
    unfold Misread at h
    omega
  rcases this with rfl | rfl | rfl <;> decide

/-! ## Zero runs -/

/-- The loop of `zeroRuns`. -/
def zeroRunsFrom (n : ℕ) : Bytes → List ℕ
  | [] => [n]
  | b :: rest => if b = 0 then zeroRunsFrom (n + 1) rest else n :: zeroRunsFrom 0 rest

/-- The lengths of the runs of zeros. -/
def zeroRuns (dat : Bytes) : List ℕ := zeroRunsFrom 0 dat

/-- No zero run is misread, where `n` zeros stand in front. -/
def ReadFrom (n : ℕ) (dat : Bytes) : Prop := ∀ k ∈ zeroRunsFrom n dat, ¬ Misread k

theorem readFrom_nil : ReadFrom n [] ↔ ¬ Misread n := by simp [ReadFrom, zeroRunsFrom]

variable {rest : Bytes}

theorem readFrom_zero_cons : ReadFrom n (0 :: rest) ↔ ReadFrom (n + 1) rest := by
  simp [ReadFrom, zeroRunsFrom]

theorem readFrom_cons (hb : b ≠ 0) : ReadFrom n (b :: rest) ↔ ¬ Misread n ∧ ReadFrom 0 rest := by
  simp [ReadFrom, zeroRunsFrom, hb]

theorem not_misread_zero : ¬ Misread 0 := by decide

theorem readFrom_zero_of_ne (hb : b ≠ 0) : ReadFrom 0 (b :: rest) ↔ ReadFrom 0 rest := by
  rw [readFrom_cons hb]
  exact and_iff_right not_misread_zero

theorem readFrom_replicate (n k : ℕ) (rest : Bytes) :
    ReadFrom n (List.replicate k 0 ++ rest) ↔ ReadFrom (n + k) rest := by
  induction k generalizing n with
  | zero => rfl
  | succ k ih =>
    rw [replicate_succ, cons_append, readFrom_zero_cons, ih]
    rw [show n + 1 + k = n + (k + 1) by omega]

theorem readFrom_of_head_ne (h : rest.head? ≠ some 0) :
    ReadFrom n rest ↔ ¬ Misread n ∧ ReadFrom 0 rest := by
  cases rest with
  | nil =>
    rw [readFrom_nil, readFrom_nil]
    exact (and_iff_left not_misread_zero).symm
  | cons b rest =>
    have hb : b ≠ 0 := fun heq => h (heq ▸ rfl)
    rw [readFrom_cons hb, readFrom_zero_of_ne hb]

theorem readFrom_add_piece (n : ℕ) (rest : Bytes) : ReadFrom (n + 255) rest ↔ ReadFrom n rest := by
  have same (m : ℕ) : Misread (m + 255) ↔ Misread m := by
    unfold Misread
    omega
  induction rest generalizing n with
  | nil => rw [readFrom_nil, readFrom_nil, same]
  | cons b rest ih =>
    by_cases hb : b = 0
    · subst hb
      exact ih (n + 1)
    · rw [readFrom_cons hb, readFrom_cons hb, same]

theorem countZeros_spec (left : ℕ) (dat : Bytes) : countZeros left dat ≤ left ∧
      dat = List.replicate (countZeros left dat) 0 ++ dat.drop (countZeros left dat) ∧
      (countZeros left dat = left ∨ (dat.drop (countZeros left dat)).head? ≠ some 0) := by
  induction left generalizing dat with
  | zero => exact ⟨Nat.zero_le _, by simp [countZeros], .inl rfl⟩
  | succ left ih =>
    cases dat with
    | nil => simp [countZeros]
    | cons b rest =>
      by_cases hb : b = 0
      · subst hb
        obtain ⟨le, split, stop⟩ := ih rest
        have count : countZeros (left + 1) (0 :: rest) = countZeros left rest + 1 := by
          simp [countZeros]
        rw [count, replicate_succ, cons_append, drop_succ_cons, ← split]
        exact ⟨Nat.succ_le_succ le, rfl, stop.imp_left (congrArg (· + 1))⟩
      · have count : countZeros (left + 1) (b :: rest) = 0 := by simp [countZeros, hb]
        rw [count]
        exact ⟨Nat.zero_le _, rfl, .inr fun heq => hb (Option.some.inj heq)⟩

/-! ## The round trip -/

/-- What is read back is no longer than `dat`, and is `dat` exactly if no run is misread. -/
def Readable (dat : Bytes) : Prop :=
  ∃ r, decompress (compress dat) = .ok r ∧ r.length ≤ dat.length ∧ (r = dat ↔ ReadFrom 0 dat)

theorem readable_nil : Readable [] := by
  refine ⟨[], ?_, le_rfl, ?_⟩
  · rw [compress, decompress]
  · rw [readFrom_nil]
    exact iff_of_true rfl not_misread_zero

theorem decompress_compress_cons {piece tail out : Bytes} (back : Bytes)
    (split : b :: rest = piece ++ tail) (chunk : compressChunk b rest = (out, piece.length))
    (reads : ∀ more, decompress (out ++ more) = (decompress more).map (back ++ ·)) :
    decompress (compress (b :: rest)) = (decompress (compress tail)).map (back ++ ·) := by
  rw [compress, chunk, split, drop_left, reads]

theorem readable_of_chunk {tail out : Bytes} (piece : Bytes) (split : b :: rest = piece ++ tail)
    (chunk : compressChunk b rest = (out, piece.length))
    (reads : ∀ more, decompress (out ++ more) = (decompress more).map (piece ++ ·))
    (runs : ReadFrom 0 (b :: rest) ↔ ReadFrom 0 tail) (h : Readable tail) : Readable (b :: rest) := by
  obtain ⟨r, hr, le, iff⟩ := h
  refine ⟨piece ++ r, ?_, ?_, ?_⟩
  · rw [decompress_compress_cons piece split chunk reads, hr]
    rfl
  · rw [split, length_append, length_append]
    omega
  · rw [runs, split, append_cancel_left_eq, iff]

theorem readable_token (h : Readable rest) : Readable (token :: rest) :=
  readable_of_chunk [token] rfl (if_pos rfl) (decompress_token tokenToken)
    (readFrom_zero_of_ne (by decide)) h

theorem readable_zeros (hz : rest.head? = some 0)
    (h : Readable ((0 :: rest).drop (countZeros 255 (0 :: rest)))) : Readable (0 :: rest) := by
  obtain ⟨rest, rfl⟩ := head?_eq_some_iff.1 hz
  have chunk : compressChunk 0 (0 :: rest) = ([token, ofNat (countZeros 255 (0 :: 0 :: rest) + 2)],
      countZeros 255 (0 :: 0 :: rest)) := by
    rw [compressChunk, if_neg (by decide), if_pos ⟨rfl, rfl⟩]
  have two : 2 ≤ countZeros 255 (0 :: 0 :: rest) := by simp [countZeros]
  obtain ⟨le, split, stop⟩ := countZeros_spec 255 (0 :: 0 :: rest)
  generalize countZeros 255 (0 :: 0 :: rest) = j at *
  generalize (0 :: 0 :: rest).drop j = tail at *
  have runs : ReadFrom 0 (0 :: 0 :: rest) ↔ ¬ Misread j ∧ ReadFrom 0 tail := by
    rw [split, readFrom_replicate, Nat.zero_add]
    rcases stop with rfl | stop
    · rw [← Nat.zero_add 255, readFrom_add_piece]
      exact (and_iff_right (by decide)).symm
    · exact readFrom_of_head_ne stop
  have written : compressChunk 0 (0 :: rest) =
      ([token, ofNat (j + 2)], (replicate j (0 : UInt8)).length) := by
    rw [chunk, length_replicate]
  by_cases bad : Misread j
  · -- the code stands for something shorter than the run
    obtain ⟨r, hr, hle, -⟩ := h
    have short := length_expand_code le bad
    have len : (0 :: 0 :: rest).length = j + tail.length := by
      rw [split, length_append, length_replicate]
    refine ⟨expand (ofNat (j + 2)) ++ r, ?_, ?_, iff_of_false (fun heq => ?_)
      fun hread => (runs.1 hread).1 bad⟩
    · rw [decompress_compress_cons _ split written (decompress_token _), hr]
      rfl
    · rw [len, length_append]
      omega
    · have := congrArg length heq
      rw [len, length_append] at this
      omega
  · refine readable_of_chunk (replicate j 0) split written (fun more => ?_) ?_ h
    · rw [← expand_code two le bad]
      exact decompress_token _ more
    · rw [runs]
      exact and_iff_right bad

theorem readable_hash (code : UInt8) (front : (b :: rest).take 32 = expand code)
    (chunk : compressChunk b rest = ([token, code], (expand code).length))
    (runs : ∀ tail, ReadFrom 0 (expand code ++ tail) ↔ ReadFrom 0 tail)
    (h : Readable ((b :: rest).drop 32)) :
    Readable (b :: rest) := by
  have split : b :: rest = expand code ++ (b :: rest).drop 32 := by rw [← front, take_append_drop]
  refine readable_of_chunk (expand code) split chunk (decompress_token code) ?_ h
  rw [← runs ((b :: rest).drop 32), ← split]

theorem readFrom_empty (tail : Bytes) : ReadFrom 0 (empty ++ tail) ↔ ReadFrom 0 tail := by
  simp only [empty, cons_append, nil_append]
  iterate 17 rw [readFrom_zero_of_ne (by decide)]
  rw [readFrom_zero_cons, readFrom_cons (by decide), and_iff_right (by decide)]
  iterate 13 rw [readFrom_zero_of_ne (by decide)]

theorem readFrom_emptyList (tail : Bytes) : ReadFrom 0 (emptyList ++ tail) ↔ ReadFrom 0 tail := by
  simp only [emptyList, cons_append, nil_append]
  iterate 32 rw [readFrom_zero_of_ne (by decide)]

theorem readable_byte (hb : b ≠ token) (chunk : compressChunk b rest = ([b], 1))
    (hz : ¬ (b = 0 ∧ rest.head? = some 0)) (h : Readable rest) : Readable (b :: rest) := by
  refine readable_of_chunk [b] rfl chunk (decompress_of_ne_token hb) ?_ h
  by_cases zero : b = 0
  · subst zero
    rw [readFrom_zero_cons, readFrom_of_head_ne fun heq => hz ⟨rfl, heq⟩]
    exact and_iff_right (by decide)
  · exact readFrom_zero_of_ne zero

theorem readable (dat : Bytes) : Readable dat := by
  -- the loop takes at least one byte, so the induction is on the length
  induction hn : dat.length using Nat.strong_induction_on generalizing dat with
  | _ n ih =>
    cases dat with
    | nil => exact readable_nil
    | cons b rest =>
      have shorter {k : ℕ} (hk : 0 < k) : Readable ((b :: rest).drop k) := by
        refine ih _ ?_ _ rfl
        rw [← hn, length_drop, length_cons]
        omega
      by_cases ht : b = token
      · subst ht
        exact readable_token (shorter Nat.one_pos)
      by_cases hz : b = 0 ∧ rest.head? = some 0
      · obtain ⟨rfl, hz⟩ := hz
        refine readable_zeros hz (shorter ?_)
        simp [countZeros]
      by_cases he : 32 ≤ (b :: rest).length ∧ (b :: rest).take 32 = empty
      · refine readable_hash emptyShaToken he.2 ?_ readFrom_empty (shorter (by norm_num))
        rw [compressChunk, if_neg ht, if_neg hz, if_pos he]
        rfl
      by_cases hl : 32 ≤ (b :: rest).length ∧ (b :: rest).take 32 = emptyList
      · refine readable_hash emptyListShaToken hl.2 ?_ readFrom_emptyList (shorter (by norm_num))
        rw [compressChunk, if_neg ht, if_neg hz, if_neg he, if_pos hl]
        rfl
      · refine readable_byte ht ?_ hz (shorter Nat.one_pos)
        rw [compressChunk, if_neg ht, if_neg hz, if_neg he, if_neg hl]

/-- What `Compress` wrote is given back exactly if no zero run leaves 251, 252 or 253 zeros after
pieces of 255. -/
theorem decompress_compress_iff (dat : Bytes) : (∃ r, decompress (compress dat) = .ok r) ∧
      (decompress (compress dat) = .ok dat ↔ ∀ n ∈ zeroRuns dat, n % 255 ≠ 251 ∧ n % 255 ≠ 252 ∧
        n % 255 ≠ 253) := by
  obtain ⟨r, hr, -, iff⟩ := readable dat
  refine ⟨⟨r, hr⟩, ?_⟩
  rw [hr, Except.ok.injEq, iff]
  simp only [ReadFrom, zeroRuns, Misread, not_or]

/-- 251 zeros come back as the hash of nothing. -/
theorem zeros_misread : decompress (compress (List.replicate 251 0)) = .ok empty ∧
    decompress (compress (List.replicate 251 0)) ≠ .ok (List.replicate 251 0) := by
  have chunk : compressChunk 0 (replicate 250 0) = ([token, emptyShaToken], 251) := by decide +kernel
  have written : compress (replicate 251 0) = [token, emptyShaToken] := by
    rw [replicate_succ, compress, chunk, ← replicate_succ, drop_replicate]
    simp [compress]
  rw [written]
  exact ⟨rfl, by decide +kernel⟩

end JuChain.Rle
