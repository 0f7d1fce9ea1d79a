import JuChain.Rlp.Raw

/-!
# The encoder

`common/rlp/encode.go`.  The encoder collects the strings in one buffer and, for every list, a
header with the place in that buffer where the list starts; the length is filled in at the end of
the list.  `Wrote w w' bs`: whatever is written later, the finished output has `bs` at the place
where the writer started.
-/

namespace JuChain.Rlp

open BigEndian RLP List

/-- A list header: where it stands in the string data, and the size of the encoded list. -/
structure ListHead where
  offset : ℕ
  size : ℕ
  deriving DecidableEq

/-- `encbuf`: string data without list headers, the headers, and their encoded size. -/
structure EncBuf where
  str : Bytes
  lheads : List ListHead
  lhsize : ℕ
  deriving DecidableEq

/-- `putint`: the lowest bytes of a `uint64` that are needed for it. -/
def putint (i : ℕ) : Bytes :=
  if i < 2 ^ 8 then fixed 1 i
  else if i < 2 ^ 16 then fixed 2 i
  else if i < 2 ^ 24 then fixed 3 i
  else if i < 2 ^ 32 then fixed 4 i
  else if i < 2 ^ 40 then fixed 5 i
  else if i < 2 ^ 48 then fixed 6 i
  else if i < 2 ^ 56 then fixed 7 i
  else fixed 8 i

/-- The loop of `intsize`.  A `uint64` is zero after eight shifts. -/
def intsizeFrom : ℕ → ℕ → ℕ → ℕ
  | 0, size, _ => size
  | n + 1, size, i => if i / 256 = 0 then size else intsizeFrom n (size + 1) (i / 256)

def intsize (i : ℕ) : ℕ := intsizeFrom 8 1 i

def headsize (size : ℕ) : ℕ := if size < 56 then 1 else 1 + intsize size

def puthead (smalltag largetag : UInt8) (size : ℕ) : Bytes :=
  if size < 56 then [smalltag + UInt8.ofNat size]
  else (largetag + UInt8.ofNat (putint size).length) :: putint size

namespace EncBuf

variable (w : EncBuf)

/-- An empty buffer. -/
def empty : EncBuf := ⟨[], [], 0⟩

/-- `encbuf.size`. -/
def size : ℕ := w.str.length + w.lhsize

/-- `encbuf.Write`. -/
def write (b : Bytes) : EncBuf := { w with str := w.str ++ b }

def encodeStringHeader (size : ℕ) : EncBuf := w.write (puthead 0x80 0xB7 size)

def encodeString (b : Bytes) : EncBuf :=
  if Single b then w.write b else (w.encodeStringHeader b.length).write b

/-- `list`: the new header holds the header bytes so far, until the list ends.  The pointer to it is
its index. -/
def list : ℕ × EncBuf :=
  (w.lheads.length, { w with lheads := w.lheads ++ [⟨w.str.length, w.lhsize⟩] })

/-- `encbuf.listEnd`. -/
def listEnd (i : ℕ) : EncBuf :=
  match w.lheads[i]? with
  | none => w
  | some lh =>
    let size := w.size - lh.offset - lh.size
    { w with lheads := w.lheads.set i ⟨lh.offset, size⟩, lhsize := w.lhsize + headsize size }

/-- The loop of `toBytes` from position `strpos` of the string data on. -/
def flush (str : Bytes) : ℕ → List ListHead → Bytes
  | strpos, [] => str.drop strpos
  | strpos, head :: heads =>
    (str.take head.offset).drop strpos ++ puthead 0xC0 0xF7 head.size ++ flush str head.offset heads

/-- `encbuf.toBytes`. -/
def toBytes : Bytes := flush w.str 0 w.lheads

end EncBuf

mutual

/-- The writer of an `interface{}` that holds a `[]byte` or a `[]interface{}`. -/
def writeItem : Item → EncBuf → EncBuf
  | .str b, w => w.encodeString b
  | .list xs, w => (writeItems xs w.list.2).listEnd w.list.1

/-- The items, one after the other. -/
def writeItems : List Item → EncBuf → EncBuf
  | [], w => w
  | x :: xs, w => writeItems xs (writeItem x w)

end

/-- `EncodeToBytes` of a tree of `[]interface{}` and `[]byte`. -/
def encodeToBytes (x : Item) : Bytes := (writeItem x .empty).toBytes

/-! ## Headers -/

theorem intsizeFrom_eq {n size i : ℕ} (h : i < 256 ^ (n + 1)) :
    intsizeFrom n size i = size + ((minimal i).length - 1) := by
  induction n generalizing size i with
  | zero =>
    have short : (minimal i).length ≤ 1 := length_minimal_le.2 h
    rw [intsizeFrom]
    omega
  | succ n ih =>
    rw [intsizeFrom]
    split_ifs with hi
    · have short : (minimal i).length ≤ 1 := length_minimal_le.2 (by omega)
      omega
    · have next : i / 256 < 256 ^ (n + 1) := by
        rw [pow_succ] at h
        exact Nat.div_lt_of_lt_mul (by rwa [Nat.mul_comm] at h)
      have pos : 0 < (minimal (i / 256)).length :=
        length_pos_iff.2 (minimal_ne_nil (Nat.pos_of_ne_zero hi))
      have long : (minimal i).length = (minimal (i / 256)).length + 1 := by
        rw [minimal_of_pos (n := i) (by omega), length_append, length_singleton]
      rw [ih next]
      omega

theorem intsize_eq {i : ℕ} (pos : 0 < i) (fits : i < 2 ^ 64) : intsize i = (minimal i).length := by
  have long : 0 < (minimal i).length := length_pos_iff.2 (minimal_ne_nil pos)
  rw [intsize, intsizeFrom_eq (by norm_num; omega)]
  omega

theorem fixed_eq_minimal {w i : ℕ} (low : 256 ^ w ≤ i) (high : i < 256 ^ (w + 1)) :
    fixed (w + 1) i = minimal i := by
  have len : (minimal i).length = w + 1 := by
    have le : (minimal i).length ≤ w + 1 := length_minimal_le.2 high
    have gt : ¬ (minimal i).length ≤ w := fun h => absurd (length_minimal_le.1 h) (Nat.not_lt.2 low)
    omega
  rw [← fixed_value len, value_minimal]

theorem putint_eq {i : ℕ} (pos : 0 < i) (fits : i < 2 ^ 64) : putint i = minimal i := by
  unfold putint
  -- In each branch the bounds of the width are among the conditions.
  split_ifs <;> exact fixed_eq_minimal (by omega) (by omega)

theorem puthead_eq {smalltag largetag : UInt8} {size : ℕ} (fits : size < 2 ^ 64) :
    puthead smalltag largetag size = header smalltag largetag size := by
  unfold puthead header
  split_ifs with short
  · rfl
  · rw [putint_eq (by omega) fits]

theorem length_puthead {smalltag largetag : UInt8} {size : ℕ} (fits : size < 2 ^ 64) :
    (puthead smalltag largetag size).length = headsize size := by
  unfold puthead headsize
  split_ifs with short
  · rfl
  · rw [length_cons, putint_eq (by omega) fits, intsize_eq (by omega) fits, Nat.add_comm]

/-! ## What a writer adds to the output -/

/-- From `w` to `w'` the bytes `bs` were written: they stand in the output before everything written
later. -/
structure Wrote (w w' : EncBuf) (bs : Bytes) : Prop where
  grows : ∃ s hs, w'.str = w.str ++ s ∧ w'.lheads = w.lheads ++ hs ∧
    (∀ h ∈ hs, w.str.length ≤ h.offset) ∧
    ∀ t rest, (∀ h ∈ rest, w'.str.length ≤ h.offset) →
      EncBuf.flush (w'.str ++ t) w.str.length (hs ++ rest) =
        bs ++ EncBuf.flush (w'.str ++ t) w'.str.length rest
  size : w'.size = w.size + bs.length

namespace Wrote

variable {w w' w'' : EncBuf} {a b : Bytes}

theorem refl (w : EncBuf) : Wrote w w [] where
  grows := ⟨[], [], (append_nil _).symm, (append_nil _).symm, by simp, fun t rest _ => rfl⟩
  size := rfl

theorem trans (h : Wrote w w' a) (h' : Wrote w' w'' b) : Wrote w w'' (a ++ b) := by
  obtain ⟨⟨s, hs, hstr, hheads, hoff, hout⟩, hsize⟩ := h
  obtain ⟨⟨s', hs', hstr', hheads', hoff', hout'⟩, hsize'⟩ := h'
  have hlen : w.str.length ≤ w'.str.length := by
    rw [hstr, length_append]
    exact Nat.le_add_right _ _
  have hlen' : w'.str.length ≤ w''.str.length := by
    rw [hstr', length_append]
    exact Nat.le_add_right _ _
  refine ⟨⟨s ++ s', hs ++ hs', ?_, ?_, ?_, ?_⟩, ?_⟩
  · rw [hstr', hstr, append_assoc]
  · rw [hheads', hheads, append_assoc]
  · intro h hh
    rcases mem_append.1 hh with hh | hh
    · exact hoff h hh
    · exact hlen.trans (hoff' h hh)
  · intro t rest hrest
    have first := hout (s' ++ t) (hs' ++ rest) (by
      intro h hh
      rcases mem_append.1 hh with hh | hh
      · exact hoff' h hh
      · exact hlen'.trans (hrest h hh))
    rw [← append_assoc, ← hstr'] at first
    rw [append_assoc hs, first, hout' t rest hrest, append_assoc]
  · rw [hsize', hsize, length_append, Nat.add_assoc]

theorem write (w : EncBuf) (b : Bytes) : Wrote w (w.write b) b where
  grows := by
    refine ⟨b, [], rfl, (append_nil _).symm, by simp, fun t rest hrest => ?_⟩
    cases rest with
    | nil =>
      simp only [nil_append, EncBuf.flush, EncBuf.write]
      rw [drop_left, append_assoc, drop_left]
    | cons head rest =>
      -- the next header stands behind the new bytes, so they are copied before it
      have hoff : (w.str ++ b).length ≤ head.offset := hrest head mem_cons_self
      simp only [nil_append, EncBuf.flush, EncBuf.write]
      rw [take_append, take_of_length_le hoff, drop_left, append_assoc w.str b,
        drop_left]
      simp only [append_assoc]
  size := by
    simp only [EncBuf.size, EncBuf.write, length_append]
    omega

theorem encodeStringHeader (w : EncBuf) {size : ℕ} (fits : size < 2 ^ 64) :
    Wrote w (w.encodeStringHeader size) (header 0x80 0xB7 size) := by
  rw [EncBuf.encodeStringHeader, puthead_eq fits]
  exact write w _

theorem encodeString (w : EncBuf) {bs : Bytes} (fits : bs.length < 2 ^ 64) :
    Wrote w (w.encodeString bs) (RLP.encodeString bs) := by
  rw [EncBuf.encodeString, RLP.encodeString]
  split_ifs
  · exact write w bs
  · exact (encodeStringHeader w fits).trans (write _ bs)

theorem list (h : Wrote w.list.2 w' a) (fits : a.length < 2 ^ 64) :
    Wrote w (w'.listEnd w.list.1) (encodeList a) := by
  obtain ⟨⟨s, hs, hstr, hheads, hoff, hout⟩, hsize⟩ := h
  have hlheads : w'.lheads = w.lheads ++ ⟨w.str.length, w.lhsize⟩ :: hs := by
    rw [hheads]
    simp [EncBuf.list]
  have found : w'.lheads[w.list.1]? = some ⟨w.str.length, w.lhsize⟩ := by
    rw [hlheads]
    simp [EncBuf.list]
  -- the header held the size of the buffer at the start of the list
  have length : w'.size - w.str.length - w.lhsize = a.length := by
    rw [hsize]
    simp only [EncBuf.list, EncBuf.size]
    omega
  have hend : w'.listEnd w.list.1 =
      { w' with
        lheads := w.lheads ++ ⟨w.str.length, a.length⟩ :: hs
        lhsize := w'.lhsize + headsize a.length } := by
    rw [EncBuf.listEnd, found]
    simp only [length]
    rw [hlheads]
    simp [EncBuf.list]
  rw [hend]
  refine ⟨⟨s, ⟨w.str.length, a.length⟩ :: hs, hstr, rfl, ?_, ?_⟩, ?_⟩
  · intro h hh
    rcases mem_cons.1 hh with rfl | hh
    · exact le_rfl
    · exact hoff h hh
  · intro t rest hrest
    have inner := hout t rest hrest
    have start : ((w'.str ++ t).take w.str.length).drop w.str.length = [] := by
      apply drop_eq_nil_of_le
      rw [length_take]
      exact Nat.min_le_left _ _
    simp only [cons_append, EncBuf.flush]
    rw [start, nil_append, puthead_eq fits, encodeList, append_assoc]
    exact congrArg _ inner
  · have hlen : (encodeList a).length = headsize a.length + a.length := by
      rw [encodeList, length_append, ← puthead_eq fits, length_puthead fits]
    have hw : w.list.2.size = w.size := rfl
    simp only [EncBuf.size] at hsize hw ⊢
    omega

/-- What was written into an empty buffer is the output, of the size of the buffer. -/
theorem toBytes_eq (h : Wrote .empty w a) : w.toBytes = a ∧ w.size = a.length := by
  obtain ⟨⟨s, hs, hstr, hheads, hoff, hout⟩, hsize⟩ := h
  have all := hout [] [] (by simp)
  rw [append_nil, append_nil] at all
  constructor
  · rw [EncBuf.toBytes, hheads]
    refine all.trans ?_
    rw [EncBuf.flush, drop_length, append_nil]
  · rw [hsize]
    simp [EncBuf.empty, EncBuf.size]

end Wrote

theorem wrote_writeItems {n : ℕ} {xs : List Item}
    (h : ∀ x ∈ xs, ∀ w, x.Fits n → Wrote w (writeItem x w) x.encode) (fits : AllFit n xs) (w : EncBuf) :
    Wrote w (writeItems xs w) (encodeAll xs) := by
  induction xs generalizing w with
  | nil => exact Wrote.refl w
  | cons x xs ih =>
    apply (h x mem_cons_self w fits.1).trans
    exact ih (fun y hy => h y (mem_cons_of_mem x hy)) fits.2 _

theorem wrote_writeItem {n : ℕ} (hn : n ≤ 2 ^ 64) (x : Item) :
    ∀ w, x.Fits n → Wrote w (writeItem x w) x.encode := by
  induction x using Item.induct with
  | str bs =>
    intro w fits
    exact Wrote.encodeString w (Nat.lt_of_lt_of_le fits hn)
  | list xs ih =>
    intro w fits
    exact (wrote_writeItems ih fits.2 w.list.2).list (Nat.lt_of_lt_of_le fits.1 hn)

theorem encodeToBytes_eq {n : ℕ} (hn : n ≤ 2 ^ 64) {x : Item} (fits : x.Fits n) :
    encodeToBytes x = x.encode :=
  (wrote_writeItem hn x .empty fits).toBytes_eq.1

end JuChain.Rlp
