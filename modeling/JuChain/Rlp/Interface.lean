import JuChain.Rlp.Encode
import JuChain.Rlp.Stream

/-!
# Item trees on the wire

Decoding into an `interface{}` gives a tree of byte slices and lists.  Encoding and decoding are
inverse to each other, and the decoder accepts nothing else.  The loop over the elements and the
recursion into nested lists are bounded by the length of the input; the bound is never reached.
-/

namespace JuChain.Rlp

open RLP JuChain.Rlp.Stream List

def wrapStreamError (typ : String) : Err → Err
  | .canonInt => .decode "non-canonical integer (leading zero bytes)" typ []
  | .canonSize => .decode "non-canonical size information" typ []
  | .expectedList => .decode "expected input list" typ []
  | .expectedString => .decode "expected input string or byte" typ []
  | .uintOverflow => .decode "input string too long" typ []
  | .notAtEOL => .decode "input list has too many elements" typ []
  | e => e

def addErrorContext (ctx : String) : Err → Err
  | .decode msg typ path => .decode msg typ (path ++ [ctx])
  | e => e

section Slices

variable {α : Type} (elemdec : Stream → Res α)

def decodeSliceElems : ℕ → ℕ → Stream → Res (List α)
  | 0, _, s => .error .fuel s
  | n + 1, i, s =>
    match elemdec s with
    | .error .eol s => .ok [] s
    | .error e s => .error (addErrorContext s!"[{i}]" e) s
    | .ok a s => (decodeSliceElems n (i + 1) s).andThen fun as s => .ok (a :: as) s

def decodeListSlice (typ : String) (n : ℕ) (s : Stream) : Res (List α) :=
  match s.list with
  | .error e s => .error (wrapStreamError typ e) s
  | .ok size s =>
    if size = 0 then s.listEnd.andThen fun _ s => .ok [] s
    else (decodeSliceElems elemdec n 0 s).andThen fun as s => s.listEnd.andThen fun _ s => .ok as s

end Slices

/-- The name of the type. -/
def ifsliceType : String := "[]interface \x7b\x7d"

/-- `decodeInterface` for at most `n` levels of lists with fewer than `n` elements. -/
def decodeInterface : ℕ → Stream → Res Item
  | 0, s => .error .fuel s
  | n + 1, s => s.kindOf.andThen fun (kind, _) s =>
    if kind = .list then
      (decodeListSlice (decodeInterface n) ifsliceType n s).andThen fun xs s => .ok (.list xs) s
    else s.bytes.andThen fun b s => .ok (.str b) s

/-- `DecodeBytes` into an interface. -/
def decodeBytes (b : Bytes) : Except Err Item :=
  match decodeInterface (b.length + 1) (Stream.new b b.length) with
  | .error (.decode msg typ (c :: ctx)) _ =>
    .error (.decode msg typ (c :: ctx ++ ["(interface \x7b\x7d)"]))
  | .error e _ => .error e
  | .ok x s => if 0 < s.input.length then .error .moreThanOneValue else .ok x

/-! ## Soundness -/

variable {α : Type} {s s' t : Stream} {xs : List Item} {typ ctx : String}

/-- A decoder reads what `G` describes; the end of the list comes before its value only. -/
structure Decodes (G : α → Bytes → Prop) (dec : Stream → Res α) : Prop where
  sound : ∀ {s a s'}, s.kind = none → dec s = .ok a s' → ∃ bs, G a bs ∧ Reads s bs s'
  eol : ∀ {s s'}, s.kind = none → dec s = .error .eol s' →
    s.AtEnd ∧ s'.toCursor = s.toCursor ∧ s'.kind = none

/-- The standard encoding of an item whose lengths are 64-bit numbers. -/
def ItemBytes (x : Item) (bs : Bytes) : Prop := x.Fits (2 ^ 64) ∧ bs = x.encode

variable {elemdec : Stream → Res α} {n i size : ℕ}

theorem decodeSliceElems_succ_eq_ok {as : List α} : decodeSliceElems elemdec (n + 1) i s = .ok as s' ↔
      (elemdec s = .error .eol s' ∧ as = []) ∨
      ∃ a t as', elemdec s = .ok a t ∧ decodeSliceElems elemdec n (i + 1) t = .ok as' s' ∧
        as = a :: as' := by
  rw [decodeSliceElems]
  rcases hd : elemdec s with ⟨a, t⟩ | ⟨e, t⟩
  · simp only [Res.andThen_eq_ok]
    constructor
    · rintro ⟨as', u, h, h'⟩
      cases h'
      exact .inr ⟨a, t, as', rfl, h, rfl⟩
    · rintro (⟨h, -⟩ | ⟨a', t', as', h, h', rfl⟩)
      · cases h
      · cases h
        exact ⟨as', s', h', rfl⟩
  · by_cases he : e = .eol
    · subst he
      constructor
      · intro h
        cases h
        exact .inl ⟨rfl, rfl⟩
      · rintro (⟨h, rfl⟩ | ⟨a, t, as', h, -⟩)
        · cases h
          rfl
        · cases h
    · constructor
      · intro h
        cases e <;> first | exact absurd rfl he | cases h
      · rintro (⟨h, -⟩ | ⟨a, t, as', h, -⟩)
        · cases h
          exact absurd rfl he
        · cases h

variable {dec : Stream → Res Item}

theorem decodeSliceElems_sound (hd : Decodes ItemBytes dec) (hk : s.kind = none)
    (h : decodeSliceElems dec n i s = .ok xs s') : AllFit (2 ^ 64) xs ∧ Reads s (encodeAll xs) s' := by
  induction n generalizing i s xs with
  | zero => cases h
  | succ n ih =>
    rcases decodeSliceElems_succ_eq_ok.1 h with ⟨hend, rfl⟩ | ⟨x, t, xs', hx, hxs, rfl⟩
    · obtain ⟨-, hc, hk'⟩ := hd.eol hk hend
      exact ⟨trivial, Reads.refl hc hk' (room_zero s)⟩
    · obtain ⟨bs, ⟨fits, rfl⟩, hread⟩ := hd.sound hk hx
      obtain ⟨fits', hread'⟩ := ih hread.kind hxs
      exact ⟨⟨fits, fits'⟩, hread.trans hread'⟩

theorem decodeListSlice_sound (hd : Decodes ItemBytes dec)
    (hk : s.kind = none) (h : decodeListSlice dec typ n s = .ok xs s') :
    ItemBytes (.list xs) (Item.list xs).encode ∧ Reads s (Item.list xs).encode s' := by
  unfold decodeListSlice at h
  rcases hl : s.list with ⟨size, t⟩ | ⟨e, t⟩ <;> rw [hl] at h
  · have hkt : t.kind = none := by
      obtain ⟨-, -, -, rfl⟩ := (list_eq_ok hk).1 hl
      rfl
    suffices hread : ∃ u, AllFit (2 ^ 64) xs ∧ Reads t (encodeAll xs) u ∧ u.listEnd = .ok () s' by
      obtain ⟨u, fits, hread, hend⟩ := hread
      obtain ⟨fits', hlist⟩ := reads_list hk hl hread hend
      exact ⟨⟨⟨fits', fits⟩, rfl⟩, hlist⟩
    dsimp only at h
    split_ifs at h with zero
    · obtain ⟨⟨⟩, u, hend, h⟩ := Res.andThen_eq_ok.1 h
      cases h
      exact ⟨t, trivial, Reads.refl rfl hkt (room_zero t), hend⟩
    · obtain ⟨xs', u, hxs, h⟩ := Res.andThen_eq_ok.1 h
      obtain ⟨⟨⟩, v, hend, h⟩ := Res.andThen_eq_ok.1 h
      cases h
      obtain ⟨fits, hread⟩ := decodeSliceElems_sound hd hkt hxs
      exact ⟨u, fits, hread, hend⟩
  · cases h

variable {e : Err}

theorem addErrorContext_ne {e' : Err} (h : e ≠ e') (plain : ∀ msg typ path, .decode msg typ path ≠ e') :
    addErrorContext ctx e ≠ e' := by
  cases e with
  | decode msg typ path => exact plain msg typ (path ++ [ctx])
  | _ => exact h

theorem decodeSliceElems_error (h : decodeSliceElems elemdec n i s = .error e s') : e ≠ .eol := by
  induction n generalizing i s with
  | zero =>
    cases h
    exact nofun
  | succ n ih =>
    rw [decodeSliceElems] at h
    split at h
    · cases h
    · rename_i e' t hne hd
      cases h
      exact addErrorContext_ne hne nofun
    · exact ih (Res.andThen_ok_eq_error.1 h)

theorem decodeListSlice_error (hl : s.list = .ok size t)
    (h : decodeListSlice elemdec typ n s = .error e s') :
    InputError e ∨ decodeSliceElems elemdec n 0 t = .error e s' := by
  unfold decodeListSlice at h
  rw [hl] at h
  dsimp only at h
  split_ifs at h
  · exact .inl (listEnd_error (Res.andThen_ok_eq_error.1 h))
  · rcases Res.andThen_eq_error.1 h with h | ⟨as, u, -, h⟩
    · exact .inr h
    · exact .inl (listEnd_error (Res.andThen_ok_eq_error.1 h))

theorem list_of_header (h : s.kindOf = .ok (.list, size) s') : ∃ t, s'.list = .ok size t := by
  unfold Stream.list
  rw [kindOf_kindOf h]
  exact ⟨_, rfl⟩

theorem decodeListSlice_of_kindOf {r : Kind × ℕ} (h : s.kindOf = .ok r t) :
    decodeListSlice elemdec typ n t = decodeListSlice elemdec typ n s := by
  unfold decodeListSlice
  rw [list_of_kindOf h]

theorem decodes_decodeInterface (n : ℕ) : Decodes ItemBytes (decodeInterface n) := by
  induction n with
  | zero => exact ⟨fun _ h => (nomatch h), fun _ h => (nomatch h)⟩
  | succ n ih =>
    constructor
    · intro s x s' hk h
      obtain ⟨⟨k, size⟩, t, ht, h⟩ := Res.andThen_eq_ok.1 h
      dsimp only at h
      split_ifs at h with hlist
      · obtain ⟨xs, u, hxs, h⟩ := Res.andThen_eq_ok.1 h
        cases h
        rw [decodeListSlice_of_kindOf ht] at hxs
        obtain ⟨hG, hread⟩ := decodeListSlice_sound ih hk hxs
        exact ⟨_, hG, hread⟩
      · obtain ⟨b, u, hb, h⟩ := Res.andThen_eq_ok.1 h
        cases h
        rw [bytes_of_kindOf ht] at hb
        obtain ⟨fits, hread⟩ := bytes_sound hk hb
        exact ⟨_, ⟨fits, rfl⟩, hread⟩
    · intro s s' hk h
      suffices hend : s.kindOf = .error .eol s' by
        obtain ⟨atEnd, rfl⟩ := (kindOf_eq_eol hk).1 hend
        exact ⟨atEnd, rfl, hk⟩
      rcases Res.andThen_eq_error.1 h with h | ⟨⟨k, size⟩, t, ht, h⟩
      · exact h
      · dsimp only at h
        split_ifs at h with hlist
        · subst hlist
          obtain ⟨u, hl⟩ := list_of_header ht
          rcases decodeListSlice_error hl (Res.andThen_ok_eq_error.1 h) with input | h
          · exact absurd rfl input.1
          · exact absurd rfl (decodeSliceElems_error h)
        · have h := Res.andThen_ok_eq_error.1 h
          rw [bytes_of_kindOf ht] at h
          exact (bytes_error h).resolve_right fun input => input.1 rfl

/-! ## Completeness -/

theorem decodeInterface_atEnd (hn : 0 < n) (hk : s.kind = none) (h : s.AtEnd) :
    ∃ s', decodeInterface n s = .error .eol s' ∧ s'.toCursor = s.toCursor ∧ s'.kind = none := by
  obtain ⟨n, rfl⟩ : ∃ m, n = m + 1 := Nat.exists_eq_succ_of_ne_zero (by omega)
  have hkind := (kindOf_eq_eol hk).2 ⟨h, rfl⟩
  exact ⟨_, Res.andThen_eq_error.2 (.inl hkind), rfl, hk⟩

theorem atEnd_of_reads_opened {bs : Bytes} (hlen : bs.length = size)
    (h : Reads (s.opened size) bs t) : t.AtEnd := by
  have hstack : t.stack = ⟨0 + bs.length, size⟩ :: (s.moved (header 0xC0 0xF7 size).length).stack :=
    congrArg Cursor.stack h.cursor
  refine ⟨⟨0 + bs.length, size⟩, by rw [hstack]; rfl, ?_⟩
  rw [Nat.zero_add]
  exact hlen

theorem length_le_length_encodeAll (xs : List Item) : xs.length ≤ (encodeAll xs).length := by
  induction xs with
  | nil => exact le_rfl
  | cons x xs ih =>
    have := length_encode_pos x
    rw [encodeAll, length_append, length_cons]
    omega

section Elements

variable {dec : Stream → Res Item} {n : ℕ} {xs : List Item}
  (hx : ∀ x ∈ xs, ∀ t : Stream, t.kind = none → t.Ahead x.encode →
    ∃ t', dec t = .ok x t' ∧ Reads t x.encode t')
  (hend : ∀ t : Stream, t.kind = none → t.AtEnd → ∃ t', dec t = .error .eol t' ∧
    t'.toCursor = t.toCursor ∧ t'.kind = none)
  (hn : xs.length < n) (hk : s.kind = none)

include hx hend hn hk

theorem decodeSliceElems_complete (ahead : s.Ahead (encodeAll xs))
    (last : ∀ t, Reads s (encodeAll xs) t → t.AtEnd) :
    ∃ s', decodeSliceElems dec n i s = .ok xs s' ∧ Reads s (encodeAll xs) s' := by
  induction xs generalizing n i s with
  | nil =>
    obtain ⟨n, rfl⟩ : ∃ m, n = m + 1 := Nat.exists_eq_succ_of_ne_zero (by omega)
    obtain ⟨s', hd, hc, hk'⟩ := hend s hk (last s (Reads.refl rfl hk (room_zero s)))
    exact ⟨s', decodeSliceElems_succ_eq_ok.2 (.inl ⟨hd, rfl⟩), Reads.refl hc hk' (room_zero s)⟩
  | cons x xs ih =>
    obtain ⟨n, rfl⟩ : ∃ m, n = m + 1 := Nat.exists_eq_succ_of_ne_zero (by omega)
    rw [encodeAll, ahead_append] at ahead
    obtain ⟨t, hd, hread⟩ := hx x mem_cons_self s hk ahead.1
    have hmoved : t.toCursor = (s.moved x.encode.length).toCursor := hread.cursor
    obtain ⟨s', hxs, hread'⟩ := ih (n := n) (i := i + 1) (fun y hy => hx y (mem_cons_of_mem x hy))
      (by rw [length_cons] at hn; omega) hread.kind ((Ahead.congr hmoved).2 ahead.2)
      fun u hu => last u (hread.trans hu)
    exact ⟨s', decodeSliceElems_succ_eq_ok.2 (.inr ⟨x, t, xs, hd, hxs, rfl⟩), hread.trans hread'⟩

theorem decodeListSlice_complete (typ : String) (fits : (encodeAll xs).length < 2 ^ 64)
    (ahead : s.Ahead (encodeList (encodeAll xs))) :
    ∃ s', decodeListSlice dec typ n s = .ok xs s' := by
  obtain ⟨hl, inside⟩ := list_complete hk fits ahead
  unfold decodeListSlice
  rw [hl]
  dsimp only
  split_ifs with empty
  · have hnil : xs = [] := by
      have := length_le_length_encodeAll xs
      exact length_eq_zero_iff.1 (by omega)
    subst hnil
    have hread : Reads (s.opened (encodeAll []).length) (encodeAll [])
      (s.opened (encodeAll []).length) :=
      Reads.refl rfl rfl (room_zero _)
    exact ⟨_, Res.andThen_eq_ok.2 ⟨(), _, (listEnd_eq_ok hread).2 ⟨rfl, rfl⟩, rfl⟩⟩
  · obtain ⟨u, hxs, hread⟩ := decodeSliceElems_complete (i := 0) hx hend hn rfl inside
      fun t => atEnd_of_reads_opened rfl
    have hlast := (listEnd_eq_ok hread).2 ⟨rfl, rfl⟩
    exact ⟨_, Res.andThen_eq_ok.2 ⟨xs, u, hxs, Res.andThen_eq_ok.2 ⟨(), _, hlast, rfl⟩⟩⟩

end Elements

theorem decodeInterface_complete (x : Item) : ∀ {n : ℕ} {s : Stream}, x.Fits (2 ^ 64) →
    x.encode.length < n → s.kind = none → s.Ahead x.encode →
    ∃ s', decodeInterface n s = .ok x s' ∧ Reads s x.encode s' := by
  suffices found : ∀ {n : ℕ} {s : Stream}, x.Fits (2 ^ 64) → x.encode.length < n → s.kind = none →
      s.Ahead x.encode → ∃ s', decodeInterface n s = .ok x s' by
    intro n s fits hn hk ahead
    obtain ⟨s', h⟩ := found fits hn hk ahead
    obtain ⟨bs, ⟨-, rfl⟩, hread⟩ := (decodes_decodeInterface n).sound hk h
    exact ⟨s', h, hread⟩
  induction x using Item.induct with
  | str bs =>
    intro n s fits hn hk ahead
    obtain ⟨n, rfl⟩ : ∃ m, n = m + 1 := Nat.exists_eq_succ_of_ne_zero (by omega)
    obtain ⟨s', hb, -⟩ := bytes_complete hk fits ahead
    obtain ⟨⟨k, size⟩, t, ht, hcont⟩ := Res.andThen_eq_ok.1 hb
    have hlist : k ≠ .list := by
      rintro rfl
      cases hcont
    refine ⟨s', Res.andThen_eq_ok.2 ⟨_, t, ht, ?_⟩⟩
    dsimp only
    rw [if_neg hlist, bytes_of_kindOf ht, hb]
    rfl
  | list xs ih =>
    intro n s fits hn hk ahead
    obtain ⟨n, rfl⟩ : ∃ m, n = m + 1 := Nat.exists_eq_succ_of_ne_zero (by omega)
    have hlen : (encodeAll xs).length < n := by
      have hpos := length_header_pos 0xC0 0xF7 (encodeAll xs).length
      rw [Item.encode, encodeList, length_append] at hn
      omega
    have hcount := length_le_length_encodeAll xs
    have members : ∀ x ∈ xs, ∀ t : Stream, t.kind = none → t.Ahead x.encode →
        ∃ t', decodeInterface n t = .ok x t' ∧ Reads t x.encode t' := by
      intro x hx t hkt hahead
      have := length_le_encodeAll hx
      obtain ⟨t', h⟩ :=
        ih x hx (allFit_iff.1 fits.2 x hx) (show x.encode.length < n by omega) hkt hahead
      obtain ⟨bs, ⟨-, rfl⟩, hread⟩ := (decodes_decodeInterface n).sound hkt h
      exact ⟨t', h, hread⟩
    obtain ⟨s', hxs⟩ := decodeListSlice_complete members
      (fun t => decodeInterface_atEnd (by omega)) (Nat.lt_of_le_of_lt hcount hlen) hk ifsliceType
        fits.1 ahead
    obtain ⟨⟨k, size⟩, t, ht, hcont⟩ := Res.andThen_eq_ok.1 (list_complete hk fits.1 ahead).1
    have hlist : k = .list := by
      by_contra hne
      dsimp only at hcont
      rw [if_neg hne] at hcont
      cases hcont
    refine ⟨s', Res.andThen_eq_ok.2 ⟨_, t, ht, ?_⟩⟩
    dsimp only
    rw [if_pos hlist, decodeListSlice_of_kindOf ht, hxs]
    rfl

theorem ahead_new (b : Bytes) : (Stream.new b b.length).Ahead b := by
  refine ⟨prefix_rfl, le_rfl, fun _ => ?_, nofun⟩
  simp only [Stream.new]
  split_ifs <;> exact le_rfl

/-- Nothing is left of the input exactly if all of it was read. -/
theorem left_iff {b bs : Bytes} (h : Reads (Stream.new b b.length) bs s) :
    0 < s.input.length ↔ b ≠ bs := by
  have left : s.input = b.drop bs.length := congrArg Cursor.input h.cursor
  rw [left, length_drop]
  constructor
  · rintro more rfl
    omega
  · intro ne
    by_contra all
    exact ne (h.front.eq_of_length_le (by change b.length ≤ _; omega)).symm

theorem decodeBytes_eq_ok {b : Bytes} {x : Item} :
    decodeBytes b = .ok x ↔ x.Fits (2 ^ 64) ∧ b = x.encode := by
  unfold decodeBytes
  constructor
  · intro h
    split at h
    · cases h
    · cases h
    · rename_i x' s hd
      split_ifs at h with more
      cases h
      obtain ⟨bs, ⟨fits, rfl⟩, hread⟩ := (decodes_decodeInterface _).sound rfl hd
      exact ⟨fits, not_not.1 (mt (left_iff hread).2 more)⟩
  · rintro ⟨fits, rfl⟩
    obtain ⟨s, hd, hread⟩ := decodeInterface_complete x fits (Nat.lt_succ_self _) rfl (ahead_new _)
    rw [hd]
    exact if_neg (mt (left_iff hread).1 (not_not.2 rfl))

theorem encode_inj {x y : Item} (hx : x.Fits (2 ^ 64)) (hy : y.Fits (2 ^ 64))
    (h : x.encode = y.encode) : x = y := by
  have decoded := decodeBytes_eq_ok.2 ⟨hx, h.symm⟩
  rw [decodeBytes_eq_ok.2 ⟨hy, rfl⟩] at decoded
  cases decoded
  rfl

/-! ## The bound is never reached -/

theorem Decodes.length_lt {dec : Stream → Res Item} (hd : Decodes ItemBytes dec) {x : Item}
    (hk : s.kind = none) (h : dec s = .ok x s') :
    s'.input.length < s.input.length ∧ s'.kind = none := by
  obtain ⟨bs, ⟨-, rfl⟩, hread⟩ := hd.sound hk h
  have hin : s'.input = s.input.drop x.encode.length := congrArg Cursor.input hread.cursor
  have pos := length_encode_pos x
  have le := hread.room.1
  rw [hin, length_drop]
  exact ⟨by omega, hread.kind⟩

theorem decodeSliceElems_ne_fuel (hd : Decodes ItemBytes dec) {m : ℕ}
    (hf : ∀ {t t' : Stream} {e : Err}, t.kind = none → t.input.length < m → dec t = .error e t' →
      e ≠ .fuel) (hk : s.kind = none) (hm : s.input.length < m) (hn : s.input.length < n)
    (h : decodeSliceElems dec n i s = .error e s') : e ≠ .fuel := by
  induction n generalizing i s with
  | zero => omega
  | succ n ih =>
    rw [decodeSliceElems] at h
    split at h
    · cases h
    · rename_i e' t hne hd'
      cases h
      exact addErrorContext_ne (hf hk hm hd') nofun
    · rename_i x t hx
      have lt := hd.length_lt hk hx
      exact ih lt.2 (by omega) (by omega) (Res.andThen_ok_eq_error.1 h)

theorem decodeInterface_ne_fuel (hk : s.kind = none) (hn : s.input.length < n)
    (h : decodeInterface n s = .error e s') : e ≠ .fuel := by
  induction n generalizing s s' e with
  | zero => omega
  | succ n ih =>
    rcases Res.andThen_eq_error.1 h with h | ⟨⟨k, size⟩, t, ht, h⟩
    · exact kindOf_ne_fuel hk h
    dsimp only at h
    split_ifs at h with hlist
    · subst hlist
      obtain ⟨u, hl⟩ := list_of_header ht
      have hl' := hl
      rw [list_of_kindOf ht] at hl'
      obtain ⟨-, ahead, -, rfl⟩ := (list_eq_ok hk).1 hl'
      -- the header took a byte of the input
      have shorter : (s.opened size).input.length < n := by
        have pos := length_header_pos 0xC0 0xF7 size
        have le := ahead.2.1
        change (s.input.drop _).length < n
        rw [length_drop]
        omega
      rcases decodeListSlice_error hl (Res.andThen_ok_eq_error.1 h) with input | h
      · exact input.2
      · exact decodeSliceElems_ne_fuel (decodes_decodeInterface n) (fun hk hm h => ih hk hm h) rfl
          shorter shorter h
    · have h := Res.andThen_ok_eq_error.1 h
      rw [bytes_of_kindOf ht] at h
      rcases bytes_error h with h | input
      · exact kindOf_ne_fuel hk h
      · exact input.2

/-- No bound of a loop is reached: `DecodeBytes` returns an item or one of its errors. -/
theorem decodeBytes_ne_fuel (b : Bytes) : decodeBytes b ≠ .error .fuel := by
  intro h
  unfold decodeBytes at h
  split at h
  · cases h
  · rename_i e t _ hd
    cases h
    exact decodeInterface_ne_fuel rfl (Nat.lt_succ_self _) hd rfl
  · split_ifs at h
    cases h

/-- Encoding and decoding of item trees are inverse to each other. -/
theorem item_trees_canonical :
    (∀ x : Item, x.Fits (2 ^ 63) → encodeToBytes x = x.encode ∧ decodeBytes (encodeToBytes x) = .ok x) ∧
      ∀ b x, decodeBytes b = .ok x → encodeToBytes x = b := by
  constructor
  · intro x fits
    have wide : x.Fits (2 ^ 64) := Item.Fits.mono (by norm_num) fits
    have enc : encodeToBytes x = x.encode := encodeToBytes_eq (by norm_num) fits
    rw [enc]
    exact ⟨rfl, decodeBytes_eq_ok.2 ⟨wide, rfl⟩⟩
  · intro b x h
    obtain ⟨fits, rfl⟩ := decodeBytes_eq_ok.1 h
    exact encodeToBytes_eq le_rfl fits

theorem item_trees_canonical_sample : (Item.list [.str [0x01, 0x02], .list []]).Fits (2 ^ 63) ∧
      encodeToBytes (.list [.str [0x01, 0x02], .list []]) = [0xC4, 0x82, 0x01, 0x02, 0xC0] ∧
      decodeBytes [0xC4, 0x82, 0x01, 0x02, 0xC0] = .ok (.list [.str [0x01, 0x02], .list []]) := by
  have fits : (Item.list [.str [0x01, 0x02], .list []]).Fits (2 ^ 63) := by
    simp [Item.Fits, AllFit, encodeAll, Item.encode, encodeString, encodeList, header, Single]
  have enc : encodeToBytes (.list [.str [0x01, 0x02], .list []]) = [0xC4, 0x82, 0x01, 0x02, 0xC0] := by
    decide +kernel
  have round := (item_trees_canonical.1 _ fits).2
  exact ⟨fits, enc, round⟩

end JuChain.Rlp
