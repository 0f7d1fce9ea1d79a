import Mathlib

/-!
# Tallies

A tally is a finite map from candidates to counters.  Go lists a map in no fixed order, so
everything that scans one takes the listing as an argument, a permutation of the entries.
-/

namespace Tally

open List Option UInt32 AList

section Scan

variable {κ ν : Type*}

/-- How often the value occurs. -/
def ties [DecidableEq ν] (v : ν) (es : List (Σ _ : κ, ν)) : ℕ :=
  es.countP fun e => decide (v = e.2)

theorem ties_perm [DecidableEq ν] {es es' : List (Σ _ : κ, ν)} (h : es.Perm es') (v : ν) :
    ties v es = ties v es' :=
  h.countP_eq _

/-- Running maximum of the listed values, with the key it was first reached at. -/
def scanMax [LT ν] [DecidableLT ν] : List (Σ _ : κ, ν) → ν → κ → ν × κ
  | [], top, best => (top, best)
  | e :: es, top, best => if top < e.2 then scanMax es e.2 e.1 else scanMax es top best

variable [LT ν] [LE ν] [DecidableLT ν] [Std.IsLinearOrder ν] [Std.LawfulOrderLT ν]

theorem scanMax_spec (es : List (Σ _ : κ, ν)) (top : ν) (best : κ) :
    top ≤ (scanMax es top best).1 ∧ (∀ e ∈ es, e.2 ≤ (scanMax es top best).1) ∧
      (scanMax es top best = (top, best) ∨ top < (scanMax es top best).1 ∧
          ⟨(scanMax es top best).2, (scanMax es top best).1⟩ ∈ es) := by
  induction es generalizing top best with
  | nil => simp [scanMax, Std.le_refl]
  | cons e es ih =>
    rw [scanMax]
    split_ifs with h
    · obtain ⟨h₁, h₂, h₃⟩ := ih e.2 e.1
      refine ⟨by grind, ?_, Or.inr ?_⟩
      · intro e' he'
        rcases mem_cons.1 he' with rfl | he'
        · exact h₁
        · exact h₂ e' he'
      · rcases h₃ with h₃ | ⟨h₃, h₄⟩
        · rw [h₃]
          exact ⟨h, mem_cons_self⟩
        · exact ⟨by grind, mem_cons_of_mem _ h₄⟩
    · obtain ⟨h₁, h₂, h₃⟩ := ih top best
      refine ⟨h₁, ?_, ?_⟩
      · intro e' he'
        rcases mem_cons.1 he' with rfl | he'
        · grind
        · exact h₂ e' he'
      · rcases h₃ with h₃ | ⟨h₃, h₄⟩
        · exact Or.inl h₃
        · exact Or.inr ⟨h₃, mem_cons_of_mem _ h₄⟩

end Scan

section Maps

variable {κ : Type*} [DecidableEq κ] {k k' : κ}

/-- A Go map. -/
abbrev Map (κ ν : Type*) := AList fun _ : κ => ν

/-- A missing key reads as zero. -/
def Map.read {ν : Type*} [Zero ν] (m : Map κ ν) (k : κ) : ν := (m.lookup k).getD 0

/-- `m[k]++`. -/
def bump {ν : Type*} [Zero ν] [One ν] [Add ν] (m : Map κ ν) (k : κ) : Map κ ν :=
  m.insert k (m.read k + 1)

variable {ν : Type*}

theorem read_empty [Zero ν] (k : κ) : (∅ : Map κ ν).read k = 0 := by
  simp [Map.read]

theorem read_insert [Zero ν] (m : Map κ ν) (k : κ) (v : ν) : Map.read (m.insert k v) k = v := by
  simp [Map.read]

theorem read_insert_ne [Zero ν] (m : Map κ ν) (h : k' ≠ k) (v : ν) :
    Map.read (m.insert k v) k' = m.read k' := by
  simp [Map.read, lookup_insert_ne h]

theorem read_eq_of_mem [Zero ν] {m : Map κ ν} {v : ν} (h : ⟨k, v⟩ ∈ m.entries) : m.read k = v := by
  rw [Map.read, mem_def.1 (mem_lookup_iff.2 h)]
  rfl

theorem mem_entries_of_read_ne_zero [Zero ν] {m : Map κ ν} (h : m.read k ≠ 0) :
    ⟨k, m.read k⟩ ∈ m.entries := by
  cases hk : m.lookup k with
  | none => simp [Map.read, hk] at h
  | some v =>
    have hv : m.read k = v := by simp [Map.read, hk]
    rw [hv]
    exact mem_lookup_iff.1 hk

theorem mem_entries_of_mem [Zero ν] {m : Map κ ν} (h : k ∈ m) : ⟨k, m.read k⟩ ∈ m.entries := by
  obtain ⟨v, hv⟩ := isSome_iff_exists.1 (lookup_isSome.2 h)
  have read : m.read k = v := by rw [Map.read, hv, getD_some]
  rw [read]
  exact mem_lookup_iff.1 hv

section Bump

variable [Zero ν] [One ν] [Add ν]

theorem read_bump (m : Map κ ν) (k : κ) : (bump m k).read k = m.read k + 1 :=
  read_insert m k _

theorem read_bump_ne (m : Map κ ν) (h : k' ≠ k) : (bump m k).read k' = m.read k' :=
  read_insert_ne m h _

theorem mem_bump (m : Map κ ν) (k k' : κ) : k' ∈ bump m k ↔ k' = k ∨ k' ∈ m :=
  mem_insert m

end Bump

end Maps

section Best

variable {κ ν : Type*} [DecidableEq κ] [Zero ν] [LT ν] [LE ν] [DecidableLT ν]
  [Std.IsLinearOrder ν] [Std.LawfulOrderLT ν]

/-- In any order of the map; the default key is kept when all counters are zero. -/
theorem scanMax_map (zero_le : ∀ v : ν, 0 ≤ v) {m : Map κ ν} {es : List (Σ _ : κ, ν)}
    (h : es.Perm m.entries) (k₀ : κ) : (∀ k, m.read k ≤ (scanMax es 0 k₀).1) ∧
      (scanMax es 0 k₀ = (0, k₀) ∨ 0 < (scanMax es 0 k₀).1 ∧
        m.read (scanMax es 0 k₀).2 = (scanMax es 0 k₀).1 ∧ (scanMax es 0 k₀).2 ∈ m) := by
  obtain ⟨h₀, h₁, h₂⟩ := scanMax_spec es (0 : ν) k₀
  refine ⟨fun k => ?_, ?_⟩
  · by_cases hk : m.read k = 0
    · rw [hk]
      exact zero_le _
    · exact h₁ _ (h.mem_iff.2 (mem_entries_of_read_ne_zero hk))
  · rcases h₂ with h₂ | ⟨hpos, hmem⟩
    · exact Or.inl h₂
    · have hm := h.mem_iff.1 hmem
      refine Or.inr ⟨hpos, read_eq_of_mem hm, ?_⟩
      exact mem_keys_of_mem hm

end Best

section Unique

variable {κ ν : Type*} [DecidableEq ν]

theorem one_lt_ties_iff {m : Map κ ν} {es : List (Σ _ : κ, ν)} (h : es.Perm m.entries) (v : ν) :
    1 < ties v es ↔ ∃ k k', k ≠ k' ∧ ⟨k, v⟩ ∈ m.entries ∧ ⟨k', v⟩ ∈ m.entries := by
  have hd : (m.entries.filter fun e => decide (v = e.2)).Nodup :=
    (NodupKeys.nodup m.nodupKeys).filter _
  rw [ties_perm h, ties, countP_eq_length_filter]
  constructor
  · intro hl
    obtain ⟨e, e', rest, hf⟩ : ∃ e e' rest,
        (m.entries.filter fun e => decide (v = e.2)) = e :: e' :: rest := by
      match hf : m.entries.filter fun e => decide (v = e.2) with
      | [] | [e] => simp [hf] at hl
      | e :: e' :: rest => exact ⟨e, e', rest, hf⟩
    rw [hf] at hd
    have he : e ∈ m.entries.filter fun e => decide (v = e.2) := by simp [hf]
    have he' : e' ∈ m.entries.filter fun e => decide (v = e.2) := by simp [hf]
    simp only [mem_filter, decide_eq_true_eq] at he he'
    obtain ⟨k, w⟩ := e
    obtain ⟨k', w'⟩ := e'
    obtain ⟨he, rfl⟩ := he
    obtain ⟨he', hv⟩ := he'
    subst hv
    refine ⟨k, k', ?_, he, he'⟩
    rintro rfl
    simp at hd
  · rintro ⟨k, k', hne, hk, hk'⟩
    by_contra hl
    have hk : ⟨k, v⟩ ∈ m.entries.filter fun e => decide (v = e.2) := by simp [hk]
    have hk' : ⟨k', v⟩ ∈ m.entries.filter fun e => decide (v = e.2) := by simp [hk']
    match hf : m.entries.filter fun e => decide (v = e.2) with
    | [] => simp [hf] at hk
    | [e] =>
      rw [hf, mem_singleton] at hk hk'
      exact hne (congrArg Sigma.fst (hk.trans hk'.symm))
    | e :: e' :: rest => simp [hf] at hl

end Unique

section Largest

variable {κ ν : Type*} [DecidableEq κ] [Zero ν] [LT ν] [LE ν] [DecidableLT ν]
  [Std.IsLinearOrder ν] [Std.LawfulOrderLT ν]

/-- No key has a greater value. -/
def Top (m : Map κ ν) (k : κ) : Prop := k ∈ m ∧ ∀ k' ∈ m, m.read k' ≤ m.read k

/-- Two keys have the greatest value. -/
def Tied (m : Map κ ν) : Prop := ∃ k k', k ≠ k' ∧ Top m k ∧ Top m k'

theorem top_iff_of_scan (zero_le : ∀ v : ν, 0 ≤ v) {m : Map κ ν} {es : List (Σ _ : κ, ν)}
    (perm : es.Perm m.entries) (k₀ k : κ) : Top m k ↔ ⟨k, (scanMax es 0 k₀).1⟩ ∈ m.entries := by
  obtain ⟨most, found⟩ := scanMax_map zero_le perm k₀
  constructor
  · rintro ⟨mem, top⟩
    have value : m.read k = (scanMax es 0 k₀).1 := by
      have below := most k
      rcases found with h | ⟨-, read, hm⟩
      · rw [h] at below ⊢
        exact Std.le_antisymm below (zero_le _)
      · have above := top _ hm
        rw [read] at above
        exact Std.le_antisymm below above
    rw [← value]
    exact mem_entries_of_mem mem
  · intro mem
    refine ⟨mem_keys.2 (mem_keys_of_mem mem), fun k' _ => ?_⟩
    rw [read_eq_of_mem mem]
    exact most k'

theorem tied_iff_of_scan [DecidableEq ν] (zero_le : ∀ v : ν, 0 ≤ v) {m : Map κ ν}
    {es : List (Σ _ : κ, ν)} (perm : es.Perm m.entries) (k₀ : κ) :
    Tied m ↔ 1 < ties (scanMax es 0 k₀).1 es := by
  rw [one_lt_ties_iff perm]
  unfold Tied
  simp only [top_iff_of_scan zero_le perm k₀]

end Largest

section Strict

variable {κ ν : Type*} [DecidableEq κ] [Zero ν] [LT ν] [LE ν] [Std.IsLinearOrder ν]
  [Std.LawfulOrderLT ν]

/-- The counter of `k` is larger than all others and not zero. -/
def StrictBest (m : Map κ ν) (k : κ) : Prop := 0 < m.read k ∧ ∀ k', k' ≠ k → m.read k' < m.read k

theorem StrictBest.unique {m : Map κ ν} {k k' : κ} (h : StrictBest m k) (h' : StrictBest m k') :
    k = k' := by
  by_contra hne
  have h₁ := h.2 k' (Ne.symm hne)
  have h₂ := h'.2 k hne
  grind

variable [DecidableEq ν] [DecidableLT ν] {es : List (Σ _ : κ, ν)} {m : Map κ ν}

theorem StrictBest.scan {k : κ} (h : StrictBest m k) (zero_le : ∀ v : ν, 0 ≤ v)
    (perm : es.Perm m.entries) (k₀ : κ) :
    scanMax es 0 k₀ = (m.read k, k) ∧ ¬ 1 < ties (m.read k) es := by
  obtain ⟨most, found⟩ := scanMax_map zero_le perm k₀
  have hk := most k
  have hpos := h.1
  refine ⟨?_, ?_⟩
  · rcases found with h₀ | ⟨-, read, -⟩
    · rw [h₀] at hk
      grind
    · have hb : (scanMax es 0 k₀).2 = k := by
        by_contra hne
        have := h.2 _ hne
        grind
      rw [Prod.ext_iff]
      exact ⟨by rw [← read, hb], hb⟩
  · rw [one_lt_ties_iff perm]
    rintro ⟨a, b, hab, ha, hb⟩
    have ha := read_eq_of_mem ha
    have hb := read_eq_of_mem hb
    by_cases hak : a = k
    · have := h.2 b fun hbk => hab (hak.trans hbk.symm)
      grind
    · have := h.2 a hak
      grind

theorem strictBest_of_scan (zero_le : ∀ v : ν, 0 ≤ v)
    (perm : es.Perm m.entries) (k₀ : κ) (pos : (scanMax es 0 k₀).1 ≠ 0)
    (single : ¬ 1 < ties (scanMax es 0 k₀).1 es) : StrictBest m (scanMax es 0 k₀).2 := by
  obtain ⟨most, found⟩ := scanMax_map zero_le perm k₀
  rcases found with h₀ | ⟨hpos, read, mem⟩
  · rw [h₀] at pos
    exact absurd rfl pos
  · refine ⟨read ▸ hpos, fun k' hne => ?_⟩
    by_cases heq : m.read k' = (scanMax es 0 k₀).1
    · refine absurd ((one_lt_ties_iff perm _).2 ⟨k', _, hne, ?_, ?_⟩) single
      · rw [← heq]
        exact mem_entries_of_read_ne_zero (heq ▸ pos)
      · rw [← read]
        exact mem_entries_of_read_ne_zero (read ▸ pos)
    · grind

end Strict

section Votes

variable {κ : Type*} [BEq κ]

/-- `k` has more of the votes than anybody else. -/
def Leads (votes : List κ) (k : κ) : Prop :=
  0 < votes.count k ∧ ∀ k', k' ≠ k → votes.count k' < votes.count k

variable [LawfulBEq κ] {votes : List κ}

theorem Leads.cons {k id : κ} (h : Leads votes k)
    (far : id = k ∨ votes.count id + 1 < votes.count k) : Leads (id :: votes) k := by
  obtain ⟨hpos, hlt⟩ := h
  refine ⟨by rw [count_cons]; omega, fun k' hne => ?_⟩
  have hk' := hlt k' hne
  rcases far with rfl | far
  · rw [count_cons_of_ne (Ne.symm hne), count_cons_self]
    omega
  · have hk : k ≠ id := by
      rintro rfl
      omega
    rw [count_cons_of_ne (Ne.symm hk)]
    by_cases hid : k' = id
    · rw [hid, count_cons_self]
      omega
    · rw [count_cons_of_ne (Ne.symm hid)]
      omega

theorem Leads.tie {k id : κ} (h : Leads votes k) (hne : id ≠ k)
    (close : ¬ votes.count id + 1 < votes.count k) : ¬ ∃ w, Leads (id :: votes) w := by
  rintro ⟨w, -, hw⟩
  have hid := h.2 id hne
  have same : (id :: votes).count id = (id :: votes).count k := by
    rw [count_cons_self, count_cons_of_ne hne]
    omega
  by_cases hwk : w = k
  · have := hw id (hwk ▸ hne)
    rw [same, hwk] at this
    exact lt_irrefl _ this
  · have hk := hw k (Ne.symm hwk)
    by_cases hwi : w = id
    · rw [hwi, same] at hk
      exact lt_irrefl _ hk
    · have := h.2 w hwk
      rw [count_cons_of_ne (Ne.symm hwi), count_cons_of_ne hne] at hk
      omega

theorem leads_map {α : Type*} [BEq α] [LawfulBEq α] {f : α → κ} (inj : Function.Injective f)
    (votes : List α) (a : α) : Leads (votes.map f) (f a) ↔ Leads votes a := by
  unfold Leads
  rw [count_map_of_injective _ f inj]
  refine and_congr_right fun hpos => ⟨fun h b hne => ?_, fun h k hne => ?_⟩
  · have := h (f b) (inj.ne hne)
    rwa [count_map_of_injective _ f inj] at this
  · by_cases hk : ∃ b, f b = k
    · obtain ⟨b, rfl⟩ := hk
      rw [count_map_of_injective _ f inj]
      exact h b fun hb => hne (congrArg f hb)
    · have : k ∉ votes.map f := by
        intro hm
        obtain ⟨b, -, hb⟩ := mem_map.1 hm
        exact hk ⟨b, hb⟩
      rw [count_eq_zero_of_not_mem this]
      exact hpos

end Votes

section Counters

variable {κ : Type*} [DecidableEq κ] [BEq κ]

/-- The counters are the numbers of votes, modulo `2 ^ 32`. -/
structure Counts (m : Map κ UInt32) (votes : List κ) : Prop where
  read : ∀ k, m.read k = UInt32.ofNat (votes.count k)
  mem : ∀ k, k ∈ m ↔ k ∈ votes

theorem counts_empty : Counts (∅ : Map κ UInt32) [] where
  read := fun k => by simp [read_empty]
  mem := fun k => by simp

variable {m : Map κ UInt32}

theorem Counts.bump [LawfulBEq κ] {votes : List κ} (h : Counts m votes) (k : κ) :
    Counts (bump m k) (k :: votes) where
  read := by
    intro k'
    by_cases hk : k' = k
    · rw [hk, read_bump, h.read, count_cons_self, ofNat_add]
      rfl
    · rw [read_bump_ne m hk, h.read, count_cons_of_ne (Ne.symm hk)]
  mem := by
    intro k'
    rw [mem_bump, h.mem, mem_cons]

theorem Counts.strictBest {m' : Map κ UInt32} {votes votes' : List κ} (h : Counts m votes)
    (h' : Counts m' votes') (perm : votes.Perm votes') {k : κ} (best : StrictBest m k) :
    StrictBest m' k := by
  have same : ∀ k, m'.read k = m.read k := by
    intro k
    rw [h.read, h'.read, perm.count_eq]
  unfold StrictBest
  simp only [same]
  exact best

theorem Counts.strictBest_iff {votes : List κ} (h : Counts m votes) (small : votes.length < 2 ^ 32)
    (k : κ) : StrictBest m k ↔ Leads votes k := by
  have value : ∀ k, (m.read k).toNat = votes.count k := by
    intro k
    have hc : votes.count k ≤ votes.length := count_le_length
    rw [h.read, toNat_ofNat_of_lt']
    exact lt_of_le_of_lt hc small
  unfold StrictBest
  simp only [lt_iff_toNat_lt, value]
  exact Iff.rfl

end Counters

end Tally
