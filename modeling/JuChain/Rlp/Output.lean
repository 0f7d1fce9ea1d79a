import JuChain.Rlp.Encode

/-!
# The ways out of the encoder

`common/rlp/encode.go`.  `Encode` writes the output in pieces, the string data and the list headers
in turn, and the reader of `EncodeToReader` copies the same pieces into the buffers it is given.
Joined, they are `EncodeToBytes`.
-/

namespace JuChain.Rlp

open List RLP

/-- What the writer of a value does to the buffer. -/
inductive Fills : EncBuf → EncBuf → Prop
  | nothing (w : EncBuf) : Fills w w
  | write (w : EncBuf) (b : Bytes) : Fills w (w.write b)
  | next {w w' w'' : EncBuf} (h : Fills w w') (h' : Fills w' w'') : Fills w w''
  | list {w w' : EncBuf} (h : Fills w.list.2 w') : Fills w (w'.listEnd w.list.1)

/-- The loop of `toWriter` from `strpos` on: the pieces that are written. -/
def toWriterFrom (str : Bytes) : ℕ → List ListHead → List Bytes
  | strpos, [] => if strpos < str.length then [str.drop strpos] else []
  | strpos, head :: heads =>
    if strpos < head.offset then
      (str.take head.offset).drop strpos :: puthead 0xC0 0xF7 head.size :: toWriterFrom str
        head.offset heads
    else puthead 0xC0 0xF7 head.size :: toWriterFrom str strpos heads

/-- `encbuf.toWriter`. -/
def EncBuf.toWriter (w : EncBuf) : List Bytes := toWriterFrom w.str 0 w.lheads

/-- `encReader`; at the end of the output there is no buffer. -/
structure EncReader where
  buf : Option EncBuf
  lhpos : ℕ
  strpos : ℕ
  piece : Option Bytes

/-- `EncodeToReader` of a value whose writer has filled `w`. -/
def encodeToReader (w : EncBuf) : ℕ × EncReader := (w.size, ⟨some w, 0, 0, none⟩)

namespace EncReader

/-- `encReader.next`. -/
def next (r : EncReader) : Option Bytes × EncReader :=
  match r.buf, r.piece with
  | none, _ => (none, r)
  | some _, some p => (some p, r)
  | some w, none =>
    match w.lheads[r.lhpos]? with
    | some head =>
      if r.strpos < head.offset then
        (some ((w.str.take head.offset).drop r.strpos), { r with strpos := head.offset })
      else (some (puthead 0xC0 0xF7 head.size), { r with lhpos := r.lhpos + 1 })
    | none =>
      if r.strpos < w.str.length then (some (w.str.drop r.strpos), { r with strpos := w.str.length })
      else (none, r)

/-- The loop of `Read` with room for `n` bytes: the bytes, whether it ends with `io.EOF`, and the
reader. -/
def readLoop : ℕ → ℕ → EncReader → Option (Bytes × Bool × EncReader)
  | 0, _, _ => none
  | fuel + 1, n, r =>
    match r.next with
    | (none, r) => some ([], true, { r with piece := none, buf := none })
    | (some p, r) =>
      if n < p.length then some (p.take n, false, { r with piece := some (p.drop n) })
      else (readLoop fuel (n - p.length) { r with piece := none }).map fun t => (p ++ t.1, t.2)

/-- A header and the data before it are two pieces; there are the rest of a piece and the data
behind. -/
def read (r : EncReader) (n : ℕ) : Option (Bytes × Bool × EncReader) :=
  readLoop (2 * (r.buf.elim 0 (·.lheads.length)) + 3) n r

/-- Calls with buffers of the given sizes. -/
def reads : EncReader → List ℕ → Option (List (Bytes × Bool))
  | _, [] => some []
  | r, n :: sizes => (r.read n).bind fun t => (reads t.2.2 sizes).map ((t.1, t.2.1) :: ·)

/-- The reader of `w` has these pieces before it. -/
structure Left (w : EncBuf) (r : EncReader) (pieces : List Bytes) : Prop where
  buf : r.buf = some w
  eq : pieces = r.piece.toList ++ toWriterFrom w.str r.strpos (w.lheads.drop r.lhpos)

variable {w : EncBuf} {r : EncReader} {pieces : List Bytes}

theorem Left.next (left : Left w r pieces) :
    pieces = [] ∧ r.next = (none, r) ∨ ∃ p rest r', pieces = p :: rest ∧ r.next = (some p, r') ∧
      r'.buf = some w ∧ Left w { r' with piece := none } rest := by
  obtain ⟨buf, lhpos, strpos, piece⟩ := r
  obtain ⟨rfl, rfl⟩ := left
  cases piece with
  | some p => exact .inr ⟨p, _, _, rfl, rfl, rfl, rfl, rfl⟩
  | none =>
    cases found : w.lheads[lhpos]? with
    | none =>
      have last : w.lheads.drop lhpos = [] := drop_eq_nil_of_le (getElem?_eq_none_iff.1 found)
      by_cases more : strpos < w.str.length
      · refine .inr ⟨w.str.drop strpos, [], ⟨some w, lhpos, w.str.length, none⟩, ?_, ?_, rfl, rfl,
          ?_⟩ <;> simp [EncReader.next, found, more, last, toWriterFrom]
      · exact .inl (by simp [EncReader.next, found, more, last, toWriterFrom])
    | some head =>
      have here : w.lheads.drop lhpos = head :: w.lheads.drop (lhpos + 1) := by
        obtain ⟨inside, rfl⟩ := List.getElem?_eq_some_iff.1 found
        exact drop_eq_getElem_cons inside
      by_cases before : strpos < head.offset
      · refine .inr ⟨(w.str.take head.offset).drop strpos, _, ⟨some w, lhpos, head.offset, none⟩,
          ?_, ?_, rfl, rfl, rfl⟩ <;>
          simp [EncReader.next, found, before, here, toWriterFrom]
      · refine .inr ⟨puthead 0xC0 0xF7 head.size, _, ⟨some w, lhpos + 1, strpos, none⟩, ?_, ?_, rfl,
          rfl, rfl⟩ <;> simp [EncReader.next, found, before, here, toWriterFrom]

theorem Left.readLoop {fuel n : ℕ} (left : Left w r pieces) (enough : pieces.length < fuel) :
    ∃ r' rest, readLoop fuel n r = some (pieces.flatten.take n, decide (pieces.flatten.length ≤ n),
      r') ∧ rest.flatten = pieces.flatten.drop n ∧ rest.length ≤ pieces.length ∧
      (Left w r' rest ∨ r'.buf = none ∧ rest = []) := by
  induction fuel generalizing n r pieces with
  | zero => exact absurd enough (Nat.not_lt_zero _)
  | succ fuel ih =>
    rw [EncReader.readLoop]
    rcases left.next with ⟨rfl, next⟩ | ⟨p, others, r', rfl, next, buf, later⟩
    · rw [next]
      exact ⟨{ r with piece := none, buf := none }, [], by simp⟩
    · rw [next, flatten_cons, length_append]
      dsimp only
      split_ifs with cut
      · -- the piece does not fit, and what is left of it stays for the next call
        rw [take_append_of_le_length cut.le, drop_append_of_le_length cut.le,
          decide_eq_false (by omega)]
        refine ⟨{ r' with piece := some (p.drop n) }, p.drop n :: others, rfl, rfl, le_rfl,
          .inl ⟨buf, ?_⟩⟩
        rw [later.eq]
        rfl
      · have fits : p.length ≤ n := not_lt.1 cut
        obtain ⟨last, rest, done, bytes, le, after⟩ :=
          ih (n := n - p.length) later (Nat.lt_of_succ_lt_succ enough)
        refine ⟨last, rest, ?_, ?_, le.trans (Nat.le_succ _), after⟩
        · rw [done, take_append, take_of_length_le fits]
          simp only [Option.map_some, Nat.le_sub_iff_add_le' fits]
        · rw [bytes, drop_append, drop_eq_nil_of_le fits, nil_append]

/-- The reader is inside the output, or has released the buffer at its end. -/
def Holds (w : EncBuf) (r : EncReader) (out : Bytes) : Prop :=
  ∃ pieces, out = pieces.flatten ∧ pieces.length < 2 * w.lheads.length + 3 ∧
    (Left w r pieces ∨ r.buf = none ∧ pieces = [])

variable {out : Bytes}

theorem Holds.read (h : Holds w r out) (n : ℕ) :
    ∃ r', r.read n = some (out.take n, decide (out.length ≤ n), r') ∧ Holds w r' (out.drop n) := by
  obtain ⟨pieces, rfl, few, left | ⟨gone, rfl⟩⟩ := h
  · obtain ⟨r', rest, done, bytes, le, after⟩ := left.readLoop (n := n) few
    refine ⟨r', ?_, rest, bytes.symm, le.trans_lt few, after⟩
    rw [EncReader.read, left.buf]
    exact done
  · refine ⟨{ r with piece := none, buf := none }, ?_, [], by simp⟩
    simp [EncReader.read, EncReader.readLoop, EncReader.next, gone]

theorem Holds.reads (h : Holds w r out) (sizes : List ℕ) :
    ∃ replies, r.reads sizes = some replies ∧ replies.flatMap (·.1) = out.take sizes.sum ∧
      ((∃ t ∈ replies, t.2 = true) → out.length ≤ sizes.sum) ∧
      ((∀ t ∈ replies, t.2 = false) → sizes.sum ≤ out.length) := by
  induction sizes generalizing r out with
  | nil => exact ⟨[], rfl, by simp⟩
  | cons n sizes ih =>
    obtain ⟨r', first, after⟩ := h.read n
    obtain ⟨replies, rest, bytes, ended, going⟩ := ih after
    rw [length_drop] at ended going
    refine ⟨(out.take n, decide (out.length ≤ n)) :: replies, ?_, ?_, ?_, ?_⟩
    · simp [EncReader.reads, first, rest]
    · rw [flatMap_cons, bytes, sum_cons, take_add]
    · rw [exists_mem_cons_iff, sum_cons, decide_eq_true_eq]
      rintro (eof | eof)
      · omega
      · have all := ended eof
        omega
    · rw [forall_mem_cons, sum_cons, decide_eq_false_iff_not]
      rintro ⟨more, none⟩
      have filled := going none
      omega

end EncReader

/-! ## The pieces are the output -/

variable {w w' : EncBuf} {str : Bytes} {strpos : ℕ} {heads : List ListHead}

theorem flatten_toWriterFrom (sorted : (strpos :: heads.map (·.offset)).Pairwise (· ≤ ·)) :
    (toWriterFrom str strpos heads).flatten = EncBuf.flush str strpos heads := by
  induction heads generalizing strpos with
  | nil =>
    unfold toWriterFrom EncBuf.flush
    split_ifs with more
    · simp
    · rw [drop_eq_nil_of_le (Nat.not_lt.1 more), flatten_nil]
  | cons head heads ih =>
    have le : strpos ≤ head.offset := rel_of_pairwise_cons sorted mem_cons_self
    unfold toWriterFrom EncBuf.flush
    split_ifs with before
    · simp [ih sorted.of_cons]
    · obtain rfl := le.antisymm (not_lt.1 before)
      simp [ih sorted.of_cons]

theorem length_toWriterFrom (str : Bytes) (strpos : ℕ) (heads : List ListHead) :
    (toWriterFrom str strpos heads).length ≤ 2 * heads.length + 1 := by
  induction heads generalizing strpos with
  | nil =>
    unfold toWriterFrom
    split_ifs <;> simp
  | cons head heads ih =>
    have := ih head.offset
    have := ih strpos
    unfold toWriterFrom
    split_ifs <;> simp only [length_cons] <;> omega

theorem offsets_listEnd (w : EncBuf) (i : ℕ) :
    (w.listEnd i).lheads.map (·.offset) = w.lheads.map (·.offset) := by
  unfold EncBuf.listEnd
  cases found : w.lheads[i]? with
  | none => rfl
  | some lh =>
    obtain ⟨inside, rfl⟩ := List.getElem?_eq_some_iff.1 found
    rw [map_set]
    simp only [← getElem_map (fun h : ListHead => h.offset) (h := by simpa using inside),
      set_getElem_self]

/-- The headers are in order, and each stands at the end of the string data or before it. -/
theorem Fills.sorted (h : Fills w w')
    (sorted : (w.lheads.map (·.offset) ++ [w.str.length]).Pairwise (· ≤ ·)) :
    (w'.lheads.map (·.offset) ++ [w'.str.length]).Pairwise (· ≤ ·) := by
  induction h with
  | nothing => exact sorted
  | write w b =>
    simp only [pairwise_append, mem_singleton, forall_eq, EncBuf.write, length_append] at sorted ⊢
    exact ⟨sorted.1, pairwise_singleton _ _, fun x hx => (sorted.2.2 x hx).trans (Nat.le_add_right _ _)⟩
  | next _ _ ih ih' => exact ih' (ih sorted)
  | @list w w' _ ih =>
    have closed : (w'.listEnd w.list.1).str = w'.str := by
      unfold EncBuf.listEnd
      split <;> rfl
    rw [offsets_listEnd, closed]
    apply ih
    simp only [EncBuf.list, map_append, map_cons, map_nil]
    refine pairwise_append.2 ⟨sorted, pairwise_singleton _ _, fun x hx y hy => ?_⟩
    rw [mem_singleton.1 hy]
    rcases mem_append.1 hx with hx | hx
    · exact (pairwise_append.1 sorted).2.2 x hx _ (mem_singleton_self _)
    · exact (mem_singleton.1 hx).le

theorem le_size_listEnd (w : EncBuf) (i : ℕ) : w.size ≤ (w.listEnd i).size := by
  unfold EncBuf.listEnd
  split
  · exact le_rfl
  · simp only [EncBuf.size]
    omega

theorem Fills.wrote (h : Fills w w') (fits : w'.size < 2 ^ 64) : ∃ a, Wrote w w' a := by
  induction h with
  | nothing w => exact ⟨[], .refl w⟩
  | write w b => exact ⟨b, .write w b⟩
  | next _ _ ih ih' =>
    obtain ⟨b, second⟩ := ih' fits
    have before := second.size ▸ fits
    obtain ⟨a, first⟩ := ih (by omega)
    exact ⟨a ++ b, first.trans second⟩
  | list _ ih =>
    have inner := (le_size_listEnd _ _).trans_lt fits
    obtain ⟨a, body⟩ := ih inner
    rw [body.size] at inner
    exact ⟨_, body.list (by omega)⟩

/-- The outputs of `w` are the same bytes; the reader gives all of them once it has ended with
`io.EOF`, and before that fills its buffers. -/
def OutputsAgree (w : EncBuf) (sizes : List ℕ) : Prop :=
  w.toWriter.flatten = w.toBytes ∧ (encodeToReader w).1 = w.toBytes.length ∧
    ∃ replies, (encodeToReader w).2.reads sizes = some replies ∧
      ((∃ t ∈ replies, t.2 = true) → replies.flatMap (·.1) = w.toBytes) ∧
      ((∀ t ∈ replies, t.2 = false) →
        replies.flatMap (·.1) <+: w.toBytes ∧ (replies.flatMap (·.1)).length = sizes.sum)

/-- All outputs agree on a buffer that writers filled. -/
theorem outputsAgree_of_fills (filled : Fills .empty w) (fits : w.size < 2 ^ 64) (sizes : List ℕ) :
    OutputsAgree w sizes := by
  have sorted := (pairwise_append.1 (filled.sorted (pairwise_singleton _ _))).1
  have bytes : w.toWriter.flatten = w.toBytes := flatten_toWriterFrom (by simpa using sorted)
  obtain ⟨a, wrote⟩ := filled.wrote fits
  obtain ⟨rfl, size⟩ := wrote.toBytes_eq
  have few := length_toWriterFrom w.str 0 w.lheads
  have start : EncReader.Holds w (encodeToReader w).2 w.toBytes :=
    ⟨w.toWriter, bytes.symm, by rw [EncBuf.toWriter]; omega, .inl ⟨rfl, rfl⟩⟩
  obtain ⟨replies, run, read, ended, going⟩ := start.reads sizes
  refine ⟨bytes, size, replies, run, fun eof => ?_, fun none => ?_⟩
  · rw [read, take_of_length_le (ended eof)]
  · rw [read]
    refine ⟨?_, length_take_of_le (going none)⟩
    exact take_prefix _ _

theorem fills_writeItem (x : Item) : ∀ w, Fills w (writeItem x w) := by
  induction x using Item.induct with
  | str bs =>
    intro w
    rw [writeItem, EncBuf.encodeString]
    split
    · exact .write w bs
    · exact .next (.write w _) (.write _ bs)
  | list xs each =>
    have all (w : EncBuf) : Fills w (writeItems xs w) := by
      induction xs generalizing w with
      | nil => exact .nothing w
      | cons x xs ih =>
        exact .next (each x mem_cons_self w) (ih (fun y hy => each y (mem_cons_of_mem x hy)) _)
    intro w
    exact .list (all w.list.2)

/-- A list with a string of two bytes, read by calls for none, two and five bytes. -/
theorem outputsAgree_list : encodeToBytes (.list [.str [1, 2]]) = [0xC3, 0x82, 1, 2] ∧
    OutputsAgree (writeItem (.list [.str [1, 2]]) .empty) [0, 2, 5] :=
  ⟨by decide, outputsAgree_of_fills (fills_writeItem _ _) (by decide) [0, 2, 5]⟩

end JuChain.Rlp
