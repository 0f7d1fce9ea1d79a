import JuChain.Rlp.Raw
import JuChain.Trie.Keys
import JuChain.Types.Words

/-!
# Trie nodes

`core/trie/node.go`: the nodes of a trie in memory, and the decoder of the nodes stored in the
database.  A node shorter than a hash is stored inside its parent, so decoding is recursive; the
recursion is bounded by the length of the buffer, because an embedded node lies within the content
of the list around it.
-/

namespace JuChain.Trie

open Slices Rlp

/-- The cached hash, the generation a node was last used in, and whether it has to be written. -/
structure NodeFlag where
  hash : Option Hash
  gen : UInt16
  dirty : Bool
  deriving DecidableEq

/-- A `node`; `nil` is the nil interface.  A `hashNode` always has 32 bytes. -/
inductive Node where
  | nil
  | short (key : List Nibble) (val : Node) (flags : NodeFlag)
  | full (children : Nibble → Node) (flags : NodeFlag)
  | hash (h : Hash)
  | value (v : Bytes)

/-- Why a node cannot be decoded.  `path` is a `decodeError`, with the way to the child. -/
inductive NodeErr where
  | unexpectedEOF
  | notList (e : Err)
  | count (c : ℕ)
  | rlp (e : Err)
  | valueNode (e : Err)
  | oversized (size : ℕ)
  | stringSize (size : ℕ)
  | path (what : NodeErr) (stack : List String)
  deriving DecidableEq

variable {hash : Option Hash} {cachegen : UInt16} {n i : ℕ} {elems ref buf : Bytes} {clds : List Node}
variable {dec : Bytes → Except (Fault NodeErr) Node}

def wrapError (ctx : String) : NodeErr → NodeErr
  | .path what stack => .path what (stack ++ [ctx])
  | e => .path e [ctx]

/-- `c, _ := rlp.CountValues(elems)`: the error is dropped, and the count is then zero. -/
def countedValues (elems : Bytes) : Except (Fault NodeErr) ℕ :=
  match countValues elems with
  | .ok c => .ok c
  | .error (.err _) => .ok 0
  | .error .panic => .error .panic

section Decoding

variable (dec : Bytes → Except (Fault NodeErr) Node)

/-- `decodeRef`. -/
def decodeRefWith (buf : Bytes) : Except (Fault NodeErr) (Node × Bytes) := do
  let (kind, val, rest) ← mapErr .rlp (split buf)
  match kind with
  | .list =>
    if 32 < buf.length - rest.length then .error (.err (.oversized (buf.length - rest.length)))
    else do
      let n ← dec buf
      pure (n, rest)
  | .string =>
    if val.length = 0 then pure (.nil, rest)
    else if val.length = 32 then pure (.hash (bytesToHash val), rest)
    else .error (.err (.stringSize val.length))
  | .byte => .error (.err (.stringSize val.length))

/-- The loop of `decodeFull`. -/
def decodeRefsWith : ℕ → ℕ → Bytes → Except (Fault NodeErr) (List Node × Bytes)
  | 0, _, elems => pure ([], elems)
  | n + 1, i, elems => do
    let (cld, rest) ← mapErr (wrapError s!"[{i}]") (decodeRefWith dec elems)
    let (clds, rest) ← decodeRefsWith n (i + 1) rest
    pure (cld :: clds, rest)

/-- `decodeShort`. -/
def decodeShortWith (hash : Option Hash) (elems : Bytes) (cachegen : UInt16) :
    Except (Fault NodeErr) Node := do
  let (kbuf, rest) ← mapErr .rlp (splitString elems)
  let flag : NodeFlag := ⟨hash, cachegen, false⟩
  let key ← compactToHex kbuf
  if hasTerm key then do
    let (val, _) ← mapErr .valueNode (splitString rest)
    pure (.short key (.value val) flag)
  else do
    let (r, _) ← mapErr (wrapError "val") (decodeRefWith dec rest)
    pure (.short key r flag)

/-- `decodeFull`. -/
def decodeFullWith (hash : Option Hash) (elems : Bytes) (cachegen : UInt16) :
    Except (Fault NodeErr) Node := do
  let (clds, elems) ← decodeRefsWith dec 16 0 elems
  let (val, _) ← mapErr .rlp (splitString elems)
  let last := if 0 < val.length then Node.value val else .nil
  pure (.full (fun i => (clds ++ [last]).getD i .nil) ⟨hash, cachegen, false⟩)

/-- `decodeNode`, given itself for embedded nodes. -/
def decodeNodeWith (hash : Option Hash) (buf : Bytes) (cachegen : UInt16) :
    Except (Fault NodeErr) Node :=
  if buf.length = 0 then .error (.err .unexpectedEOF)
  else do
    let (elems, _) ← mapErr .notList (splitList buf)
    let c ← countedValues elems
    if c = 2 then mapErr (wrapError "short") (decodeShortWith dec hash elems cachegen)
    else if c = 17 then mapErr (wrapError "full") (decodeFullWith dec hash elems cachegen)
    else .error (.err (.count c))

end Decoding

/-- `decodeNode` with bounded depth. -/
def decodeNodeWithin : ℕ → Option Hash → Bytes → UInt16 → Except (Fault NodeErr) Node
  | 0, _, _, _ => .error (.err .unexpectedEOF)
  | n + 1, hash, buf, cachegen =>
    decodeNodeWith (fun b => decodeNodeWithin n none b cachegen) hash buf cachegen

def decodeNode (hash : Option Hash) (buf : Bytes) (cachegen : UInt16) : Except (Fault NodeErr) Node :=
  decodeNodeWithin buf.length hash buf cachegen

/-- `decodeRef`, with embedded nodes decoded by `decodeNode` without a hash. -/
def decodeRef (buf : Bytes) (cachegen : UInt16) : Except (Fault NodeErr) (Node × Bytes) :=
  decodeRefWith (fun b => decodeNode none b cachegen) buf

/-- The loop of `decodeFull`, with `decodeNode`. -/
def decodeRefs (n i : ℕ) (elems : Bytes) (cachegen : UInt16) :
    Except (Fault NodeErr) (List Node × Bytes) :=
  decodeRefsWith (fun b => decodeNode none b cachegen) n i elems

/-! ## The bound on the recursion does not matter -/

theorem decodeNodeWith_nil (dec : Bytes → Except (Fault NodeErr) Node) (hash : Option Hash)
    (cachegen : UInt16) : decodeNodeWith dec hash [] cachegen = .error (.err .unexpectedEOF) :=
  if_pos rfl

section Congr

variable {dec dec' : Bytes → Except (Fault NodeErr) Node}

variable {buf rest : Bytes}

theorem decodeRefWith_congr (h : dec buf = dec' buf) :
    decodeRefWith dec buf = decodeRefWith dec' buf := by
  unfold decodeRefWith
  rw [h]

theorem split_of_decodeRefWith {n : Node} (h : decodeRefWith dec buf = .ok (n, rest)) :
    ∃ k val, split buf = .ok (k, val, rest) := by
  obtain ⟨⟨kind, val, r⟩, hs, h⟩ := bind_eq_ok.1 h
  suffices hr : r = rest from ⟨kind, val, hr ▸ mapErr_eq_ok.1 hs⟩
  cases kind with
  | list =>
    dsimp only at h
    split_ifs at h
    obtain ⟨m, -, h⟩ := bind_eq_ok.1 h
    cases h
    rfl
  | string =>
    dsimp only at h
    split_ifs at h <;> cases h <;> rfl
  | byte => cases h

theorem length_decodeRefWith {n : Node} (h : decodeRefWith dec buf = .ok (n, rest)) :
    rest.length < buf.length := by
  obtain ⟨k, val, hs⟩ := split_of_decodeRefWith h
  exact length_rest_lt hs

theorem decodeRefsWith_congr (h : ∀ b : Bytes, b.length ≤ elems.length → dec b = dec' b) :
    decodeRefsWith dec n i elems = decodeRefsWith dec' n i elems := by
  induction n generalizing i elems with
  | zero => rfl
  | succ n ih =>
    unfold decodeRefsWith
    rw [decodeRefWith_congr (h elems le_rfl)]
    refine bind_congr_ok fun ⟨cld, rest⟩ hr => ?_
    have lt := length_decodeRefWith (mapErr_eq_ok.1 hr)
    dsimp only
    rw [ih fun b hb => h b (by omega)]

theorem decodeShortWith_congr (h : ∀ b : Bytes, b.length ≤ elems.length → dec b = dec' b) :
    decodeShortWith dec hash elems cachegen = decodeShortWith dec' hash elems cachegen := by
  refine bind_congr_ok fun ⟨kbuf, rest⟩ hs => ?_
  obtain ⟨k, -, hsplit⟩ := splitString_eq_ok.1 (mapErr_eq_ok.1 hs)
  have lt := length_rest_lt hsplit
  dsimp only
  rw [decodeRefWith_congr (h rest (by omega))]

theorem decodeNodeWith_congr (h : ∀ b : Bytes, b.length < buf.length → dec b = dec' b) :
    decodeNodeWith dec hash buf cachegen = decodeNodeWith dec' hash buf cachegen := by
  unfold decodeNodeWith
  by_cases empty : buf.length = 0
  · rw [if_pos empty, if_pos empty]
  · rw [if_neg empty, if_neg empty]
    refine bind_congr_ok fun ⟨elems, rest⟩ hs => ?_
    have lt := length_content_lt (splitList_eq_ok.1 (mapErr_eq_ok.1 hs))
    have hle : ∀ b : Bytes, b.length ≤ elems.length → dec b = dec' b := fun b hb => h b (by omega)
    have full : decodeFullWith dec hash elems cachegen = decodeFullWith dec' hash elems cachegen := by
      unfold decodeFullWith
      rw [decodeRefsWith_congr hle]
    dsimp only
    rw [decodeShortWith_congr hle, full]

end Congr

theorem decodeNodeWithin_eq {m n : ℕ} (hm : buf.length ≤ m) (hn : buf.length ≤ n) :
    decodeNodeWithin m hash buf cachegen = decodeNodeWithin n hash buf cachegen := by
  induction m generalizing n hash buf with
  | zero =>
    obtain rfl := List.length_eq_zero_iff.1 (Nat.le_zero.1 hm)
    cases n with
    | zero => rfl
    | succ n => exact (decodeNodeWith_nil _ _ _).symm
  | succ m ih =>
    cases n with
    | zero =>
      obtain rfl := List.length_eq_zero_iff.1 (Nat.le_zero.1 hn)
      exact decodeNodeWith_nil _ _ _
    | succ n => exact decodeNodeWith_congr fun b hb => ih (by omega) (by omega)

theorem decodeNode_eq (hash : Option Hash) (buf : Bytes) (cachegen : UInt16) :
    decodeNode hash buf cachegen =
      decodeNodeWith (fun b => decodeNode none b cachegen) hash buf cachegen := by
  cases hb : buf with
  | nil => exact (decodeNodeWith_nil _ _ _).symm
  | cons b bs =>
    change decodeNodeWith (fun c => decodeNodeWithin bs.length none c cachegen) hash (b :: bs)
      cachegen = _
    refine decodeNodeWith_congr fun c hc => decodeNodeWithin_eq ?_ le_rfl
    rw [List.length_cons] at hc
    omega

/-! ## Which bytes crash the decoder -/

/-- The reference is a node. -/
def Embedded (ref : Bytes) : Prop :=
  ∃ val rest, split ref = .ok (.list, val, rest) ∧ ref.length - rest.length ≤ 32

/-- Bytes that lead the decoder into one of two traps, perhaps in an embedded node: a lone tag
`0x81` at the end of a buffer, or an empty key. -/
inductive Trap (cachegen : UInt16) : Bytes → Prop where
  | tag : Trap cachegen [0x81]
  | dangling {buf elems rest : Bytes} (hl : splitList buf = .ok (elems, rest))
      (hd : Dangling elems) : Trap cachegen buf
  | emptyKey {buf elems rest rest' : Bytes} (hl : splitList buf = .ok (elems, rest))
      (hc : countValues elems = .ok 2) (hk : splitString elems = .ok ([], rest')) : Trap cachegen buf
  | extension {buf elems rest kbuf ref : Bytes} {key : List Nibble}
      (hl : splitList buf = .ok (elems, rest)) (hc : countValues elems = .ok 2)
      (hk : splitString elems = .ok (kbuf, ref)) (hkey : compactToHex (ε := NodeErr) kbuf = .ok key)
      (hterm : hasTerm key = false) (he : Embedded ref) (inner : Trap cachegen ref) : Trap cachegen buf
  | branch {buf elems rest ref : Bytes} {i : ℕ} {clds : List Node}
      (hl : splitList buf = .ok (elems, rest)) (hc : countValues elems = .ok 17) (hi : i < 16)
      (hr : decodeRefs i 0 elems cachegen = .ok (clds, ref)) (he : Embedded ref)
      (inner : Trap cachegen ref) : Trap cachegen buf

section Returns

variable {dec : Bytes → Except (Fault NodeErr) Node}

theorem not_tag_of_not_dangling {b : Bytes} (h : ¬ Dangling b) : b ≠ [0x81] := by
  rintro rfl
  exact h .last

theorem returns_decodeRefWith_iff (h : ¬ Dangling ref) :
    Returns (decodeRefWith dec ref) ↔ (Embedded ref → Returns (dec ref)) := by
  have here : Returns (mapErr NodeErr.rlp (split ref)) :=
    returns_mapErr.2 (returns_split_iff.2 (not_tag_of_not_dangling h))
  unfold decodeRefWith
  rw [returns_bind]
  constructor
  · rintro ⟨-, next⟩ ⟨val, rest, hs, small⟩
    have list := next _ (mapErr_eq_ok.2 hs)
    dsimp only at list
    rw [if_neg (Nat.not_lt.2 small)] at list
    exact (returns_bind.1 list).1
  · intro emb
    refine ⟨here, fun ⟨k, val, rest⟩ hs => ?_⟩
    cases k with
    | list =>
      dsimp only
      split_ifs with large
      · exact returns_err _
      · refine returns_bind.2 ⟨emb ⟨val, rest, mapErr_eq_ok.1 hs, Nat.not_lt.1 large⟩, fun n _ => ?_⟩
        exact returns_ok _
    | string =>
      dsimp only
      split_ifs
      · exact returns_ok _
      · exact returns_ok _
      · exact returns_err _
    | byte => exact returns_err _

variable {elems : Bytes}

theorem decodeRefsWith_succ_eq_ok : decodeRefsWith dec (n + 1) i elems = .ok (clds, ref) ↔
      ∃ cld rest clds', decodeRefWith dec elems = .ok (cld, rest) ∧
        decodeRefsWith dec n (i + 1) rest = .ok (clds', ref) ∧ clds = cld :: clds' := by
  rw [decodeRefsWith, bind_eq_ok]
  constructor
  · rintro ⟨⟨cld, rest⟩, hr, h⟩
    obtain ⟨⟨clds', ref'⟩, hrs, h⟩ := bind_eq_ok.1 h
    cases h
    exact ⟨cld, rest, clds', mapErr_eq_ok.1 hr, hrs, rfl⟩
  · rintro ⟨cld, rest, clds', hr, hrs, rfl⟩
    exact ⟨(cld, rest), mapErr_eq_ok.2 hr, bind_eq_ok.2 ⟨(clds', ref), hrs, rfl⟩⟩

theorem not_dangling_of_decodeRefsWith (h : ¬ Dangling elems)
    (hr : decodeRefsWith dec n i elems = .ok (clds, ref)) : ¬ Dangling ref := by
  induction n generalizing i elems clds with
  | zero =>
    cases hr
    exact h
  | succ n ih =>
    obtain ⟨cld, rest, clds', hr, hrs, -⟩ := decodeRefsWith_succ_eq_ok.1 hr
    obtain ⟨k, val, hs⟩ := split_of_decodeRefWith hr
    exact ih (fun hd => h (hd.of_rest hs)) hrs

theorem returns_decodeRefsWith_iff (h : ¬ Dangling elems) :
    Returns (decodeRefsWith dec n i elems) ↔ ∀ j < n, ∀ clds ref,
      decodeRefsWith dec j i elems = .ok (clds, ref) → Embedded ref → Returns (dec ref) := by
  induction n generalizing i elems with
  | zero => exact ⟨fun _ j hj => absurd hj (Nat.not_lt_zero j), fun _ => returns_ok _⟩
  | succ n ih =>
    have rest_ok : ∀ {cld rest}, decodeRefWith dec elems = .ok (cld, rest) → ¬ Dangling rest := by
      intro cld rest hr hd
      obtain ⟨k, val, hs⟩ := split_of_decodeRefWith hr
      exact h (hd.of_rest hs)
    rw [decodeRefsWith, returns_bind, returns_mapErr, returns_decodeRefWith_iff h]
    constructor
    · rintro ⟨first, next⟩ j hj clds ref hr
      cases j with
      | zero =>
        cases hr
        exact first
      | succ j =>
        obtain ⟨cld, rest, clds', hr, hrs, -⟩ := decodeRefsWith_succ_eq_ok.1 hr
        have loop := (returns_bind.1 (next (cld, rest) (mapErr_eq_ok.2 hr))).1
        exact (ih (rest_ok hr)).1 loop j (by omega) clds' ref hrs
    · intro all
      refine ⟨all 0 (Nat.succ_pos n) [] elems rfl, fun ⟨cld, rest⟩ hr => ?_⟩
      refine returns_bind.2 ⟨(ih (rest_ok (mapErr_eq_ok.1 hr))).2 ?_, fun t _ => returns_ok _⟩
      intro j hj clds ref hrs
      exact all (j + 1) (by omega) (cld :: clds) ref
        (decodeRefsWith_succ_eq_ok.2 ⟨cld, rest, clds, mapErr_eq_ok.1 hr, hrs, rfl⟩)

theorem returns_decodeFullWith_iff (h : ¬ Dangling elems) :
    Returns (decodeFullWith dec hash elems cachegen) ↔ Returns (decodeRefsWith dec 16 0 elems) := by
  unfold decodeFullWith
  rw [returns_bind]
  refine ⟨fun hr => hr.1, fun hr => ⟨hr, fun ⟨clds, ref⟩ hrs => ?_⟩⟩
  refine returns_bind.2 ⟨returns_mapErr.2 (returns_splitString_iff.2 ?_), fun t _ => returns_ok _⟩
  exact not_tag_of_not_dangling (not_dangling_of_decodeRefsWith h hrs)

theorem returns_decodeShortWith_iff (h : ¬ Dangling elems) :
    Returns (decodeShortWith dec hash elems cachegen) ↔ (∀ ref, splitString elems ≠ .ok ([], ref)) ∧
      ∀ kbuf ref key, splitString elems = .ok (kbuf, ref) → compactToHex (ε := NodeErr) kbuf = .ok key →
        hasTerm key = false → Embedded ref → Returns (dec ref) := by
  have rest_ok : ∀ {kbuf ref}, splitString elems = .ok (kbuf, ref) → ¬ Dangling ref := by
    intro kbuf ref hs hd
    obtain ⟨k, -, hs⟩ := splitString_eq_ok.1 hs
    exact h (hd.of_rest hs)
  unfold decodeShortWith
  rw [returns_bind, returns_mapErr, returns_splitString_iff]
  constructor
  · rintro ⟨-, next⟩
    refine ⟨fun ref hs => ?_, fun kbuf ref key hs hkey hterm => ?_⟩
    · exact returns_compactToHex_iff.1 (returns_bind.1 (next _ (mapErr_eq_ok.2 hs))).1 rfl
    · have value := (returns_bind.1 (next _ (mapErr_eq_ok.2 hs))).2 key hkey
      rw [hterm, if_neg Bool.false_ne_true] at value
      exact (returns_decodeRefWith_iff (rest_ok hs)).1 (returns_mapErr.1 (returns_bind.1 value).1)
  · rintro ⟨nonempty, emb⟩
    refine ⟨not_tag_of_not_dangling h, fun ⟨kbuf, ref⟩ hs => ?_⟩
    have hs := mapErr_eq_ok.1 hs
    refine returns_bind.2 ⟨returns_compactToHex_iff.2 ?_, fun key hkey => ?_⟩
    · rintro rfl
      exact nonempty ref hs
    · split_ifs with hterm
      · refine returns_bind.2 ⟨returns_mapErr.2 (returns_splitString_iff.2 ?_), fun t _ => returns_ok _⟩
        exact not_tag_of_not_dangling (rest_ok hs)
      · refine returns_bind.2 ⟨returns_mapErr.2 ((returns_decodeRefWith_iff (rest_ok hs)).2 ?_),
          fun t _ => returns_ok _⟩
        exact emb kbuf ref key hs hkey (Bool.not_eq_true _ ▸ hterm)

end Returns

theorem returns_countedValues_iff : Returns (countedValues elems) ↔ ¬ Dangling elems := by
  rw [← returns_countValues_iff, countedValues]
  rcases countValues elems with (_ | e) | c <;> simp

theorem countedValues_eq_ok {c : ℕ} (hc : c ≠ 0) :
    countedValues elems = .ok c ↔ countValues elems = .ok c := by
  rw [countedValues]
  rcases countValues elems with (_ | e) | d <;> simp [hc.symm]

theorem returns_decodeNodeWith_iff : Returns (decodeNodeWith dec hash buf cachegen) ↔
      buf ≠ [0x81] ∧ ∀ elems rest, splitList buf = .ok (elems, rest) → ¬ Dangling elems ∧
        (countValues elems = .ok 2 → Returns (decodeShortWith dec hash elems cachegen)) ∧
        (countValues elems = .ok 17 → Returns (decodeFullWith dec hash elems cachegen)) := by
  unfold decodeNodeWith
  split_ifs with empty
  · obtain rfl := List.length_eq_zero_iff.1 empty
    exact ⟨fun _ => ⟨nofun, fun _ _ hl => nomatch hl⟩, fun _ => returns_err _⟩
  rw [returns_bind, returns_mapErr, returns_splitList_iff]
  refine and_congr_right fun _ => ⟨fun next elems rest hl => ?_, fun next ⟨elems, rest⟩ hl => ?_⟩
  · obtain ⟨count, each⟩ := returns_bind.1 (next _ (mapErr_eq_ok.2 hl))
    refine ⟨returns_countedValues_iff.1 count, fun hc => ?_, fun hc => ?_⟩
    · exact returns_mapErr.1 (each 2 ((countedValues_eq_ok (by norm_num)).2 hc))
    · exact returns_mapErr.1 (each 17 ((countedValues_eq_ok (by norm_num)).2 hc))
  · obtain ⟨count, short, full⟩ := next elems rest (mapErr_eq_ok.1 hl)
    refine returns_bind.2 ⟨returns_countedValues_iff.2 count, fun c hc => ?_⟩
    split_ifs with two seventeen
    · subst two
      exact returns_mapErr.2 (short ((countedValues_eq_ok (by norm_num)).1 hc))
    · subst seventeen
      exact returns_mapErr.2 (full ((countedValues_eq_ok (by norm_num)).1 hc))
    · exact returns_err _

theorem length_decodeRefsWith {elems : Bytes} (h : decodeRefsWith dec n i elems = .ok (clds, ref)) :
    ref.length ≤ elems.length := by
  induction n generalizing i elems clds with
  | zero =>
    cases h
    exact le_rfl
  | succ n ih =>
    obtain ⟨cld, rest, clds', hr, hrs, -⟩ := decodeRefsWith_succ_eq_ok.1 h
    exact (ih hrs).trans (length_decodeRefWith hr).le

theorem returns_decodeNode_iff (hash : Option Hash) (buf : Bytes) (cachegen : UInt16) :
    Returns (decodeNode hash buf cachegen) ↔ ¬ Trap cachegen buf := by
  induction hn : buf.length using Nat.strong_induction_on generalizing hash buf with
  | _ n ih =>
    have inner : ∀ {ref elems rest : Bytes}, splitList buf = .ok (elems, rest) →
        ref.length ≤ elems.length →
        (Returns (decodeNode none ref cachegen) ↔ ¬ Trap cachegen ref) := by
      intro ref elems rest hl le
      have lt := length_content_lt (splitList_eq_ok.1 hl)
      exact ih _ (by omega) none ref rfl
    have keyed : ∀ {elems kbuf ref : Bytes}, splitString elems = .ok (kbuf, ref) →
        ref.length ≤ elems.length := by
      intro elems kbuf ref hk
      obtain ⟨k, -, hs⟩ := splitString_eq_ok.1 hk
      exact (length_rest_lt hs).le
    rw [decodeNode_eq, returns_decodeNodeWith_iff]
    constructor
    · rintro ⟨here, next⟩ trap
      cases trap with
      | tag => exact here rfl
      | dangling hl hd => exact (next _ _ hl).1 hd
      | emptyKey hl hc hk =>
        obtain ⟨nd, short, -⟩ := next _ _ hl
        exact ((returns_decodeShortWith_iff nd).1 (short hc)).1 _ hk
      | extension hl hc hk hkey hterm he trap =>
        obtain ⟨nd, short, -⟩ := next _ _ hl
        exact (inner hl (keyed hk)).1
          (((returns_decodeShortWith_iff nd).1 (short hc)).2 _ _ _ hk hkey hterm he) trap
      | branch hl hc hi hr he trap =>
        obtain ⟨nd, -, full⟩ := next _ _ hl
        have refs := (returns_decodeRefsWith_iff nd).1 ((returns_decodeFullWith_iff nd).1 (full hc))
        exact (inner hl (length_decodeRefsWith hr)).1 (refs _ hi _ _ hr he) trap
    · intro h
      refine ⟨fun here => h (here ▸ .tag), fun elems rest hl => ?_⟩
      have nd : ¬ Dangling elems := fun hd => h (.dangling hl hd)
      refine ⟨nd, fun hc => ?_, fun hc => ?_⟩
      · refine (returns_decodeShortWith_iff nd).2 ⟨fun ref hk => h (.emptyKey hl hc hk), ?_⟩
        intro kbuf ref key hk hkey hterm he
        exact (inner hl (keyed hk)).2 fun trap => h (.extension hl hc hk hkey hterm he trap)
      · refine (returns_decodeFullWith_iff nd).2 ((returns_decodeRefsWith_iff nd).2 ?_)
        intro j hj clds ref hr he
        exact (inner hl (length_decodeRefsWith hr)).2 fun trap => h (.branch hl hc hj hr he trap)

/-- The raw readers crash on the byte `0x81` alone, the node decoder on the two traps. -/
theorem readers_return_iff (hash : Option Hash) (b : Bytes) (gen : UInt16) :
    (Returns (split b) ↔ b ≠ [0x81]) ∧ (Returns (splitString b) ↔ b ≠ [0x81]) ∧
      (Returns (splitList b) ↔ b ≠ [0x81]) ∧ (Returns (countValues b) ↔ ¬ Dangling b) ∧
      (Returns (decodeNode hash b gen) ↔ ¬ Trap gen b) :=
  ⟨returns_split_iff, returns_splitString_iff, returns_splitList_iff, returns_countValues_iff,
    returns_decodeNode_iff hash b gen⟩

/-- The tag of a one-byte string without its byte, and a node with an empty key. -/
theorem readers_crash : split [0x81] = .error .panic ∧ countValues [0x05, 0x81] = .error .panic ∧
    decodeNode none [0xC2, 0x80, 0x80] 0 = .error .panic :=
  ⟨rfl, rfl, rfl⟩

end JuChain.Trie
