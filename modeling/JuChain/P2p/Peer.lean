import JuChain.Lib.Keyed

/-!
# Running several protocols on one connection

`p2p/peer.go` and `p2p/protocol.go`.  The table of message codes depends only on which protocols are
shared (`matchProtocols_eq`), and the ranges are apart as long as the declared lengths fit in 64
bits (`above_iff`).
-/

namespace JuChain.P2P

open List hiding Disjoint
open UInt64 Keyed

/-- The bytes of a name. -/
abbrev Name := List (Fin 256)

structure Cap where
  name : Name
  version : ℕ
  deriving DecidableEq

structure Protocol where
  name : Name
  version : ℕ
  length : UInt64
  deriving DecidableEq

/-- `Protocol.cap`. -/
def Protocol.cap (p : Protocol) : Cap := ⟨p.name, p.version⟩

structure ProtoRW where
  protocol : Protocol
  offset : UInt64
  deriving DecidableEq

variable {rw : ProtoRW}

/-- The name of the protocol. -/
def ProtoRW.name (rw : ProtoRW) : Name := rw.protocol.name

def baseProtocolLength : UInt64 := 16

/-- `capsByNameAndVersion`, as "not after". -/
def Cap.le (a b : Cap) : Bool := a.name < b.name ∨ a.name = b.name ∧ a.version ≤ b.version

/-- The first protocol of the list with the capability. -/
def lookup (protocols : List Protocol) (cap : Cap) : Option Protocol :=
  protocols.find? fun proto => proto.cap = cap

/-- The loop body of `matchProtocols` for a capability that matched; the map is a list. -/
def assign (table : UInt64 × List ProtoRW) (proto : Protocol) : UInt64 × List ProtoRW :=
  -- An older version of the protocol gives its codes back.
  let offset := match find ProtoRW.name proto.name table.2 with
    | some old => table.1 - old.protocol.length
    | none => table.1
  (offset + proto.length, ⟨proto, offset⟩ :: erase ProtoRW.name proto.name table.2)

def matchProtocols (protocols : List Protocol) (caps : List Cap) : List ProtoRW :=
  ((caps.mergeSort Cap.le).foldl (fun table cap => match lookup protocols cap with
    | some proto => assign table proto
    | none => table) (baseProtocolLength, [])).2

structure Msg where
  code : UInt64
  payload : List UInt8

/-- The errors of a peer. -/
inductive PeerError where
  | invalidMsgCode

/-- `protoRW.WriteMsg` on an open connection: what goes to the other side. -/
def ProtoRW.writeMsg (rw : ProtoRW) (msg : Msg) : Except PeerError Msg :=
  if rw.protocol.length ≤ msg.code then .error .invalidMsgCode
  else .ok { msg with code := msg.code + rw.offset }

/-- `protoRW.ReadMsg`. -/
def ProtoRW.readMsg (rw : ProtoRW) (msg : Msg) : Msg := { msg with code := msg.code - rw.offset }

/-- `Peer.getProto`; `running` is the map in the order of the loop. -/
def getProto (running : List ProtoRW) (code : UInt64) : Option ProtoRW :=
  running.find? fun rw => rw.offset ≤ code ∧ code < rw.offset + rw.protocol.length

/-- What becomes of a message. -/
inductive Handled where
  | pong
  | disconnect
  | discarded
  | received (rw : ProtoRW)
  | outOfRange

/-- `Peer.handle`. -/
def handle (running : List ProtoRW) (msg : Msg) : Handled :=
  if msg.code = 2 then .pong
  else if msg.code = 1 then .disconnect
  else if msg.code < baseProtocolLength then .discarded
  else match getProto running msg.code with
    | some rw => .received rw
    | none => .outOfRange

/-! ## The table of a list of protocols -/

/-- Where the codes of the protocols end. -/
def ends : List Protocol → UInt64
  | [] => baseProtocolLength
  | p :: ps => ends ps + p.length

/-- The protocols with their offsets. -/
def places : List Protocol → List ProtoRW
  | [] => []
  | p :: ps => ⟨p, ends ps⟩ :: places ps

/-- A newer version of the protocol that came last takes its place. -/
def top (ts : List Protocol) (p : Protocol) : List Protocol :=
  match ts with
  | [] => [p]
  | t :: ts => if t.name = p.name then p :: ts else p :: t :: ts

section Table

variable {p q : Protocol} {ps ts : List Protocol}

theorem mem_places (h : rw ∈ places ts) : rw.protocol ∈ ts := by
  induction ts with
  | nil => exact nomatch h
  | cons p ps ih =>
    obtain rfl | h := mem_cons.1 h
    · exact mem_cons_self
    · exact mem_cons_of_mem _ (ih h)

theorem erase_places {n : Name} (h : ∀ t ∈ ts, t.name ≠ n) :
    erase ProtoRW.name n (places ts) = places ts := by
  refine filter_eq_self.2 fun rw hrw => ?_
  have ne : rw.name ≠ n := h _ (mem_places hrw)
  simpa using ne

theorem find_places {n : Name} (h : ∀ t ∈ ts, t.name ≠ n) : find ProtoRW.name n (places ts) = none :=
  find_eq_none.2 fun _ hrw => h _ (mem_places hrw)

/-- Names strictly decrease along the list. -/
def Descending (ts : List Protocol) : Prop := ts.Pairwise fun a b => b.name < a.name

theorem Descending.top (desc : Descending ts) (last : ∀ t ∈ ts, t.name ≤ p.name) :
    Descending (top ts p) := by
  cases ts with
  | nil => exact pairwise_singleton _ _
  | cons t ts =>
    obtain ⟨below, desc⟩ := pairwise_cons.1 desc
    unfold P2P.top
    dsimp only
    split_ifs with same
    · exact pairwise_cons.2 ⟨fun s hs => same ▸ below s hs, desc⟩
    · have lt : t.name < p.name := lt_of_le_of_ne (last t mem_cons_self) same
      refine pairwise_cons.2 ⟨fun s hs => ?_, pairwise_cons.2 ⟨below, desc⟩⟩
      obtain rfl | hs := mem_cons.1 hs
      · exact lt
      · exact (below s hs).trans lt

theorem assign_places (desc : Descending ts) (last : ∀ t ∈ ts, t.name ≤ p.name) :
    assign (ends ts, places ts) p = (ends (top ts p), places (top ts p)) := by
  cases ts with
  | nil => rfl
  | cons t ts =>
    obtain ⟨below, desc⟩ := pairwise_cons.1 desc
    unfold assign top
    dsimp only
    split_ifs with same
    · -- The version before is taken out, and with it the codes it had.
      have others : ∀ s ∈ ts, s.name ≠ p.name := fun s hs => (same ▸ below s hs).ne
      have found : find ProtoRW.name p.name (places (t :: ts)) = some ⟨t, ends ts⟩ := by
        simp [find, places, ProtoRW.name, same]
      have erased : erase ProtoRW.name p.name (places (t :: ts)) = places ts := by
        rw [← erase_places others]
        simp [erase, places, ProtoRW.name, same]
      have back : ends (t :: ts) - t.length = ends ts := UInt64.add_sub_cancel _ _
      rw [found, erased]
      dsimp only
      rw [back]
      rfl
    · have others : ∀ s ∈ t :: ts, s.name ≠ p.name := by
        intro s hs
        obtain rfl | hs := mem_cons.1 hs
        · exact same
        · exact ((below s hs).trans (lt_of_le_of_ne (last t mem_cons_self) same)).ne
      rw [find_places others, erase_places others]
      rfl

theorem mem_top (desc : Descending ts) (last : ∀ t ∈ ts, t.name ≤ p.name) :
    q ∈ top ts p ↔ q = p ∨ q ∈ ts ∧ q.name ≠ p.name := by
  cases ts with
  | nil => simp [top]
  | cons t ts =>
    obtain ⟨below, desc⟩ := pairwise_cons.1 desc
    have lower : ∀ s ∈ ts, s.name ≠ p.name := fun s hs =>
      ((below s hs).trans_le (last t mem_cons_self)).ne
    unfold top
    dsimp only
    split_ifs with same
    · rw [mem_cons, mem_cons]
      refine or_congr_right ⟨fun hq => ⟨.inr hq, lower q hq⟩, ?_⟩
      rintro ⟨rfl | hq, ne⟩
      · exact absurd same ne
      · exact hq
    · rw [mem_cons]
      refine or_congr_right ⟨fun hq => ⟨hq, ?_⟩, And.left⟩
      obtain rfl | hq := mem_cons.1 hq
      · exact same
      · exact lower q hq

end Table

/-! ## The whole loop -/

/-- The protocols are in the order of `capsByNameAndVersion`. -/
def Ascending (ps : List Protocol) : Prop := ps.Pairwise fun a b => Cap.le a.cap b.cap

variable {p q : Protocol} {protocols after : List Protocol}

theorem name_le_of_le (h : Cap.le p.cap q.cap) : p.name ≤ q.name := by
  simp only [Cap.le, decide_eq_true_eq] at h
  exact h.elim le_of_lt fun h => h.1.le

theorem version_le_of_le (h : Cap.le p.cap q.cap) (same : p.name = q.name) : p.version ≤ q.version := by
  simp only [Cap.le, decide_eq_true_eq] at h
  exact h.elim (fun lt => absurd same lt.ne) And.right

/-- The newest version of each name, the names descending. -/
def tops (ps : List Protocol) : List Protocol := ps.foldl top []

theorem tops_concat (ps : List Protocol) (p : Protocol) : tops (ps ++ [p]) = top (tops ps) p :=
  foldl_concat ..

/-- No other has the name and a higher version. -/
def Best (ps : List Protocol) (p : Protocol) : Prop :=
  p ∈ ps ∧ ∀ q ∈ ps, q.name = p.name → q.version ≤ p.version

section Loop

variable {ps : List Protocol} {p q : Protocol}

theorem Ascending.concat (asc : Ascending (ps ++ [p])) :
    Ascending ps ∧ ∀ q ∈ ps, Cap.le q.cap p.cap := by
  obtain ⟨asc, -, last⟩ := pairwise_append.1 asc
  exact ⟨asc, fun q hq => last q hq p (mem_singleton.2 rfl)⟩

theorem best_concat (unique : ∀ a ∈ ps ++ [p], ∀ b ∈ ps ++ [p], a.cap = b.cap → a = b)
    (last : ∀ a ∈ ps, Cap.le a.cap p.cap) :
    Best (ps ++ [p]) q ↔ q = p ∨ Best ps q ∧ q.name ≠ p.name := by
  have here : p ∈ ps ++ [p] := mem_append_right _ (mem_singleton.2 rfl)
  constructor
  · rintro ⟨hq, best⟩
    by_cases same : q.name = p.name
    · refine .inl (unique q hq p here ?_)
      have newer := best p here same.symm
      have older : q.version ≤ p.version := by
        obtain hq | hq := mem_append.1 hq
        · exact version_le_of_le (last q hq) same
        · rw [mem_singleton.1 hq]
      rw [Protocol.cap, Protocol.cap, same, le_antisymm older newer]
    · refine .inr ⟨⟨?_, fun a ha => best a (mem_append_left _ ha)⟩, same⟩
      refine (mem_append.1 hq).resolve_right fun h => same ?_
      rw [mem_singleton.1 h]
  · rintro (rfl | ⟨⟨hq, best⟩, ne⟩)
    · refine ⟨here, fun a ha same => ?_⟩
      obtain ha | ha := mem_append.1 ha
      · exact version_le_of_le (last a ha) same
      · rw [mem_singleton.1 ha]
    · refine ⟨mem_append_left _ hq, fun a ha same => ?_⟩
      obtain ha | ha := mem_append.1 ha
      · exact best a ha same
      · rw [mem_singleton.1 ha] at same
        exact absurd same.symm ne

/-- What the loop has built from the matching protocols `ps`. -/
theorem foldl_assign (asc : Ascending ps) (unique : ∀ a ∈ ps, ∀ b ∈ ps, a.cap = b.cap → a = b) :
    ps.foldl assign (baseProtocolLength, []) = (ends (tops ps), places (tops ps)) ∧
      Descending (tops ps) ∧ ∀ q, q ∈ tops ps ↔ Best ps q := by
  induction ps using reverseRecOn with
  | nil => exact ⟨rfl, List.Pairwise.nil, fun q => iff_of_false nofun fun h => nomatch h.1⟩
  | append_singleton ps p ih =>
    obtain ⟨asc, last⟩ := asc.concat
    obtain ⟨built, desc, mem⟩ := ih asc fun a ha b hb =>
      unique a (mem_append_left _ ha) b (mem_append_left _ hb)
    have below : ∀ t ∈ tops ps, t.name ≤ p.name := fun t ht =>
      name_le_of_le (last t ((mem t).1 ht).1)
    rw [tops_concat]
    refine ⟨?_, desc.top below, fun q => ?_⟩
    · rw [foldl_concat, built]
      exact assign_places desc below
    · rw [mem_top desc below, best_concat unique last, mem q]

end Loop

/-- The protocols for the capabilities. -/
def matched (protocols : List Protocol) (caps : List Cap) : List Protocol :=
  (caps.mergeSort Cap.le).filterMap (lookup protocols)

theorem cap_of_lookup {cap : Cap} (h : lookup protocols cap = some p) : p ∈ protocols ∧ p.cap = cap :=
  ⟨mem_of_find?_eq_some h, by simpa using find?_some h⟩

theorem ascending_matched (protocols : List Protocol) (caps : List Cap) :
    Ascending (matched protocols caps) := by
  have sorted : (caps.mergeSort Cap.le).Pairwise fun a b => Cap.le a b := by
    refine pairwise_mergeSort ?_ ?_ _
    · intro a b c hab hbc
      simp only [Cap.le, decide_eq_true_eq] at *
      rcases hab with hab | ⟨hab, vab⟩ <;> rcases hbc with hbc | ⟨hbc, vbc⟩
      · exact .inl (hab.trans hbc)
      · exact .inl (hbc ▸ hab)
      · exact .inl (hab ▸ hbc)
      · exact .inr ⟨hab.trans hbc, vab.trans vbc⟩
    · intro a b
      simp only [Cap.le, Bool.or_eq_true, decide_eq_true_eq]
      rcases lt_trichotomy a.name b.name with h | h | h
      · exact .inl (.inl h)
      · exact (le_total a.version b.version).imp (fun v => .inr ⟨h, v⟩) fun v => .inr ⟨h.symm, v⟩
      · exact .inr (.inl h)
  refine pairwise_filterMap.2 (sorted.imp fun hab p hp q hq => ?_)
  rw [(cap_of_lookup hp).2, (cap_of_lookup hq).2]
  exact hab

theorem unique_matched {caps : List Cap} :
    ∀ a ∈ matched protocols caps, ∀ b ∈ matched protocols caps, a.cap = b.cap → a = b := by
  intro a ha b hb same
  obtain ⟨c, -, hc⟩ := mem_filterMap.1 ha
  obtain ⟨d, -, hd⟩ := mem_filterMap.1 hb
  rw [← (cap_of_lookup hc).2, same, (cap_of_lookup hd).2, hd] at hc
  exact (Option.some.inj hc).symm

theorem matchProtocols_eq (protocols : List Protocol) (caps : List Cap) :
    matchProtocols protocols caps = places (tops (matched protocols caps)) := by
  have loop := (foldl_assign (ascending_matched protocols caps) unique_matched).1
  have second : places (tops (matched protocols caps)) =
      ((matched protocols caps).foldl assign (baseProtocolLength, [])).2 := by rw [loop]
  rw [second, matched, foldl_filterMap]
  unfold matchProtocols
  congr 2
  funext table cap
  cases lookup protocols cap <;> rfl

/-! ## Ranges -/

/-- The codes of a protocol. -/
def ProtoRW.codes (rw : ProtoRW) : Set UInt64 :=
  { code | ∃ c < rw.protocol.length, code = c + rw.offset }

/-- The codes in use. -/
def total (ts : List Protocol) : ℕ := 16 + (ts.map fun t => t.length.toNat).sum

theorem total_cons (t : Protocol) (ts : List Protocol) :
    total (t :: ts) = total ts + t.length.toNat := by
  simp [total]
  omega

variable {ts : List Protocol}

theorem toNat_ends : (ends ts).toNat = total ts % 2 ^ 64 := by
  induction ts with
  | nil => rfl
  | cons t ts ih =>
    rw [ends, total_cons, UInt64.toNat_add, ih, Nat.mod_add_mod]

theorem mem_places_iff :
    rw ∈ places ts ↔ ∃ before after, ts = before ++ rw.protocol :: after ∧ rw.offset = ends after := by
  induction ts with
  | nil => simp [places]
  | cons t ts ih =>
    rw [places, mem_cons, ih]
    constructor
    · rintro (rfl | ⟨before, after, rfl, offset⟩)
      · exact ⟨[], ts, rfl, rfl⟩
      · exact ⟨t :: before, after, rfl, offset⟩
    · rintro ⟨_ | ⟨b, before⟩, after, split, offset⟩
      · obtain ⟨rfl, rfl⟩ := cons.inj split
        exact .inl (by rw [← offset])
      · obtain ⟨rfl, rfl⟩ := cons.inj split
        exact .inr ⟨before, after, rfl, offset⟩

theorem total_le_of_suffix {before : List Protocol} :
    total after + p.length.toNat ≤ total (before ++ p :: after) := by
  simp [total]
  omega

theorem toNat_code {c : UInt64} (hc : c < p.length)
    (fits : total after + p.length.toNat ≤ 2 ^ 64) :
    (c + ends after).toNat = total after + c.toNat := by
  have lt : c.toNat < p.length.toNat := lt_iff_toNat_lt.1 hc
  rw [UInt64.toNat_add, toNat_ends, Nat.add_mod_mod, Nat.add_comm]
  exact Nat.mod_eq_of_lt (by omega)

/-- The first range that does not fit takes the code zero of the base protocol. -/
theorem above_iff (ts : List Protocol) :
    (∀ rw ∈ places ts, ∀ code ∈ rw.codes, baseProtocolLength ≤ code) ↔ total ts ≤ 2 ^ 64 := by
  constructor
  · induction ts with
    | nil => exact fun _ => by norm_num [total]
    | cons t ts ih =>
      intro above
      obtain ⟨first, rest⟩ := forall_mem_cons.1 above
      have fits := ih rest
      rw [total_cons]
      by_contra wraps
      have low : 16 ≤ total ts := Nat.le_add_right 16 _
      have small : 2 ^ 64 - total ts < 2 ^ 64 := by omega
      have toNat : (ofNat (2 ^ 64 - total ts)).toNat = 2 ^ 64 - total ts :=
        toNat_ofNat_of_lt small
      have declared : ofNat (2 ^ 64 - total ts) < t.length := by
        rw [lt_iff_toNat_lt, toNat]
        omega
      have zero : (ofNat (2 ^ 64 - total ts) + ends ts).toNat = 0 := by
        rw [UInt64.toNat_add, toNat, toNat_ends, Nat.add_mod_mod, Nat.sub_add_cancel fits]
        rfl
      have high := le_iff_toNat_le.1 (first _ ⟨_, declared, rfl⟩)
      rw [zero] at high
      exact absurd high (by decide)
  · rintro fits rw hrw _ ⟨c, hc, rfl⟩
    obtain ⟨before, after, rfl, offset⟩ := mem_places_iff.1 hrw
    have code := toNat_code hc (total_le_of_suffix.trans fits)
    have low : 16 ≤ total after := Nat.le_add_right 16 _
    rw [le_iff_toNat_le, offset, code]
    exact low.trans (Nat.le_add_right _ _)

instance symm_disjoint_codes : Std.Symm fun a b : ProtoRW => Disjoint a.codes b.codes :=
  ⟨fun _ _ h => h.symm⟩

theorem apart_of_total_le (fits : total ts ≤ 2 ^ 64) :
    (places ts).Pairwise fun a b => Disjoint a.codes b.codes := by
  induction ts with
  | nil => exact List.Pairwise.nil
  | cons t ts ih =>
    rw [total_cons] at fits
    refine pairwise_cons.2 ⟨fun rw hrw => ?_, ih (by omega)⟩
    refine Set.disjoint_left.2 ?_
    rintro _ ⟨c, hc, rfl⟩ ⟨d, hd, same⟩
    -- The range of a protocol further down ends where this one starts, or earlier.
    obtain ⟨before, after, rfl, offset⟩ := mem_places_iff.1 hrw
    have below : total after + rw.protocol.length.toNat ≤ total (before ++ rw.protocol :: after) :=
      total_le_of_suffix
    have code := toNat_code hc fits
    have code' := toNat_code hd (below.trans (by omega))
    have lt : d.toNat < rw.protocol.length.toNat := lt_iff_toNat_lt.1 hd
    rw [offset] at same
    rw [same, code'] at code
    omega

theorem mem_codes_of_getProto {running : List ProtoRW} {code : UInt64}
    (found : getProto running code = some rw) : rw ∈ running ∧ code ∈ rw.codes := by
  refine ⟨mem_of_find?_eq_some found, code - rw.offset, ?_, (sub_add_cancel _ _).symm⟩
  have within := find?_some found
  simp only [decide_eq_true_eq, UInt64.le_iff_toNat_le, UInt64.lt_iff_toNat_lt, UInt64.toNat_add]
    at within
  rw [UInt64.lt_iff_toNat_lt, UInt64.toNat_sub_of_le _ _ (UInt64.le_iff_toNat_le.2 within.1)]
  omega

section Delivery

variable {ts before after : List Protocol} {p : Protocol} {running : List ProtoRW} {c : UInt64}

theorem getProto_iff (fits : total ts ≤ 2 ^ 64) (split : ts = before ++ p :: after)
    (order : running.Perm (places ts)) (hc : c < p.length) :
    getProto running (c + ends after) = some ⟨p, ends after⟩ ↔ total (p :: after) < 2 ^ 64 := by
  have here : (⟨p, ends after⟩ : ProtoRW) ∈ places ts := mem_places_iff.2 ⟨before, after, split, rfl⟩
  have suffix_le : total after + p.length.toNat ≤ 2 ^ 64 := by
    rw [split] at fits
    exact total_le_of_suffix.trans fits
  have code := toNat_code hc suffix_le
  have lt : c.toNat < p.length.toNat := lt_iff_toNat_lt.1 hc
  have sum := total_cons p after
  have finish : (ends after + p.length).toNat = total (p :: after) % 2 ^ 64 :=
    (toNat_ends : (ends (p :: after)).toNat = _)
  constructor
  · intro found
    have within := find?_some found
    simp only [decide_eq_true_eq, lt_iff_toNat_lt, code, finish] at within
    by_contra full
    rw [show total (p :: after) = 2 ^ 64 by omega, Nat.mod_self] at within
    exact absurd within.2 (Nat.not_lt_zero _)
  · intro room
    have start : (ends after).toNat = total after := by
      rw [toNat_ends, Nat.mod_eq_of_lt (by omega)]
    have found : (getProto running (c + ends after)).isSome := by
      rw [getProto, find?_isSome]
      refine ⟨_, order.mem_iff.2 here, ?_⟩
      simp only [decide_eq_true_eq, le_iff_toNat_le, lt_iff_toNat_lt, code, start, finish]
      omega
    obtain ⟨rw, hrw⟩ := Option.isSome_iff_exists.1 found
    obtain ⟨mem, within⟩ := mem_codes_of_getProto hrw
    by_contra ne
    have other : rw ≠ ⟨p, ends after⟩ := fun same => ne (same ▸ hrw)
    have apart := (apart_of_total_le fits).forall (order.mem_iff.1 mem) here other
    exact Set.disjoint_left.1 apart within ⟨c, hc, rfl⟩

end Delivery

end JuChain.P2P
