import JuChain.State.Edits

/-!
# Snapshots are restored

In every state over a snapshot the view of the snapshot can be rewound to (`Over`); so
`RevertToSnapshot` gives back all that the readers return.  Two things are not taken back: a touch
of the RIPEMD contract, by design, and the place of an address that was deleted and created again in
the map of live objects.
-/

namespace JuChain.State

open List Function Option

namespace Live

open StateDB (ripemd)

variable {s t : Live} {a b : Address} {o : StateObject} {loud : Prop} {c : Change}
  {rest new : List Change}

/-! ## Over a snapshot -/

theorem Sound.backed (h : s.Sound) : s.view.Backed := fun a ha => (h.tidy a).trie_eq_none ha

theorem Fits.rewinds {e : Entry} (h : s.Sound) (fits : Fits s a e o) :
    StateDB.Rewinds s.view ((s.view.append e).setObject a o) := by
  cases fits with
  | create missing =>
    have created : s.view.createObject a = (s.view.append (.createObject a)).setObject a {} := by
      have here : s.view.objects a = none := missing
      rw [StateDB.createObject, here]
    rw [← created]
    exact StateDB.rewinds_createObject h.backed a
  | reset held =>
    rename_i prev
    have objects : update (update s.object a (some o)) a (some prev) = s.object := by
      rw [update_idem, ← held.object, update_eq_self]
    refine StateDB.rewinds_append rfl ?_
    exact congrArg (fun x => StateDB.mk _ x _ _ _ _ _ _ _ _) objects
  | change held he back => exact StateDB.rewinds_modify held.object (StateDB.undo_of_restore he) back
  | touch held =>
    have same : (s.view.append (.touch a)).setObject a o = s.view.append (.touch a) := by
      have objects : update s.object a (some o) = s.object := by
        rw [← held.object, update_eq_self]
      exact congrArg (fun x => { s.view.append (.touch a) with objects := x }) objects
    rw [same]
    exact StateDB.rewinds_append rfl rfl

theorem object_setStateObject_ne_none (live : s.object b ≠ none) (a : Address) (o : StateObject) :
    (s.setStateObject a o).object b ≠ none := by
  rw [object_setStateObject]
  by_cases hba : b = a
  · rw [hba, update_self]
    exact nofun
  · rwa [update_of_ne hba]

variable {x : Object} {p : Object → Prop}

theorem stateObjects_of_deleted {x : Object} (hx : (s.setStateObject a o).stateObjects b = some x)
    (hd : x.deleted = true) : s.stateObjects b = some x := by
  by_cases hb : b = a
  · rw [hb, holds_setStateObject] at hx
    cases hx
    cases hd
  · rwa [stateObjects_setStateObject hb] at hx

/-- A state `t` over the state `s`, with the new entries of the journal: the view of `s` can be
rewound to, and only the marks of missing accounts are lost. -/
structure Over (loud : Prop) (s t : Live) (new : List Change) : Prop where
  entries : t.entries = new ++ s.entries
  rewinds : StateDB.Rewinds s.view t.view
  created : ∀ a, .state (.createObject a) ∈ new → s.object a = none
  live : ∀ a, s.object a ≠ none → t.object a ≠ none
  dirty : ∀ a, s.object a ≠ none → t.stateObjectsDirty a = s.stateObjectsDirty a
  deleted : ∀ a x, t.stateObjects a = some x → x.deleted = true →
    s.stateObjects a = some x ∧ t.stateObjectsDirty a = s.stateObjectsDirty a
  fresh : ∀ h, .addPreimage h ∈ new → s.preimages h = none
  preimages : ∀ h, t.preimages h = s.preimages h ∨ .addPreimage h ∈ new
  extra : ∃ n, t.dirties ripemd + s.view.dirties ripemd = s.dirties ripemd + t.view.dirties ripemd + n ∧
    (n ≠ 0 → loud)

theorem Over.refl (loud : Prop) (s : Live) : Over loud s s [] :=
  ⟨rfl, .refl _, fun _ h => absurd h not_mem_nil, fun _ => id, fun _ _ => rfl, fun _ _ hx _ =>
    ⟨hx, rfl⟩, fun _ h => absurd h not_mem_nil, fun _ => .inl rfl, 0, rfl, fun h => absurd rfl h⟩

variable {u : Live}

theorem Over.trans {new' : List Change} (h : Over loud s t new) (h' : Over loud t u new') :
    Over loud s u (new' ++ new) := by
  have fresh : ∀ hash, t.preimages hash = none → s.preimages hash = none := by
    intro hash hn
    rcases h.preimages hash with heq | hm
    · exact heq ▸ hn
    · exact h.fresh hash hm
  refine ⟨?_, h.rewinds.trans h'.rewinds, fun a hm => ?_, fun a ha => h'.live a (h.live a ha),
    fun a ha => (h'.dirty a (h.live a ha)).trans (h.dirty a ha), fun a x hx hd => ?_, fun hash hm => ?_,
    fun hash => ?_, ?_⟩
  · rw [h'.entries, h.entries, append_assoc]
  · rcases mem_append.1 hm with hm | hm
    · by_contra hs
      exact h.live a hs (h'.created a hm)
    · exact h.created a hm
  · obtain ⟨ht, heq⟩ := h'.deleted a x hx hd
    obtain ⟨hs, heq'⟩ := h.deleted a x ht hd
    exact ⟨hs, heq.trans heq'⟩
  · rcases mem_append.1 hm with hm | hm
    · exact fresh hash (h'.fresh hash hm)
    · exact h.fresh hash hm
  · rcases h'.preimages hash with heq' | hm
    · rw [heq']
      exact (h.preimages hash).imp_right (mem_append_right new')
    · exact .inr (mem_append_left new hm)
  · obtain ⟨n, hn, loudly⟩ := h.extra
    obtain ⟨n', hn', loudly'⟩ := h'.extra
    refine ⟨n + n', by omega, fun hne => ?_⟩
    rcases Nat.eq_zero_or_pos n with rfl | hpos
    · exact loudly' (by omega)
    · exact loudly (by omega)

theorem Over.plain (hc : c.entry.bind Entry.dirtied = none) (rewinds : StateDB.Rewinds s.view t.view)
    (htr : t.trie = s.trie) (hso : t.stateObjects = s.stateObjects)
    (hdirty : t.stateObjectsDirty = s.stateObjectsDirty) (hd : t.dirties = s.dirties)
    (he : t.entries = c :: s.entries) (fresh : ∀ h, c = .addPreimage h → s.preimages h = none)
    (pre : ∀ h, t.preimages h = s.preimages h ∨ c = .addPreimage h) : Over loud s t [c] := by
  have object (a : Address) : t.object a = s.object a := object_congr (congrFun hso a) (congrFun htr a)
  have counts : t.view.dirties ripemd = s.view.dirties ripemd := by
    rw [view_dirties_cons he, hc]
    rfl
  refine ⟨he, rewinds, fun a hm => ?_, fun a ha => ?_, fun a _ => congrFun hdirty a,
    fun a x hx _ => ⟨hso ▸ hx, congrFun hdirty a⟩, fun h hm => ?_,
    fun h => (pre h).imp_right fun heq => mem_singleton.2 heq.symm, 0, ?_, fun h => absurd rfl h⟩
  · rw [← mem_singleton.1 hm] at hc
    cases hc
  · rwa [object]
  · exact fresh h (mem_singleton.1 hm).symm
  · rw [hd, counts]
    omega

theorem Edit.over (h : s.Sound) (edit : Edit loud s t) : ∃ new, Over loud s t new := by
  cases edit with
  | load missing htrie =>
    rename_i a data
    have same := view_load missing htrie
    have object : (s.setStateObject a (newObject data)).object = s.object :=
      congrArg StateDB.objects same
    refine ⟨[], rfl, same ▸ .refl _, fun _ h => absurd h not_mem_nil, fun b hb => ?_, fun _ _ => rfl,
      fun b x hx hd => ⟨stateObjects_of_deleted hx hd, rfl⟩, fun _ h => absurd h not_mem_nil,
      fun _ => .inl rfl, 0, rfl, fun h => absurd rfl h⟩
    rwa [object]
  | write fits =>
    rename_i a e o
    have rewinds := fits.rewinds h
    rw [← view_append, ← view_setStateObject] at rewinds
    have count := view_dirties_cons (s := (s.append (.state e)).setStateObject a o) rfl ripemd
    have dirties := dirties_append (s := s) (.state e) ripemd
    refine ⟨[.state e], rfl, rewinds, fun b hm => ?_, fun b hb => ?_, fun _ _ => rfl,
      fun b x hx hd => ⟨stateObjects_of_deleted (s := s.append (.state e)) hx hd, rfl⟩,
        fun hash hm => ?_,
      fun _ => .inl rfl, 0, ?_, fun h => absurd rfl h⟩
    · cases mem_singleton.1 hm
      cases fits with
      | create missing => exact missing
      | change _ he => cases he
    · have same : s.object b = (s.append (.state e)).object b := object_congr rfl rfl
      exact object_setStateObject_ne_none (same ▸ hb) a o
    · cases mem_singleton.1 hm
    · show (s.append (.state e)).dirties ripemd + _ = _
      rw [dirties, count]
      show _ = s.dirties ripemd + (s.view.dirties ripemd + _) + 0
      omega
  | mark hl held =>
    have same : (s.dirty ripemd).view = s.view := view_of_eq rfl rfl rfl rfl rfl rfl rfl rfl rfl
    have object : (s.dirty ripemd).object = s.object := congrArg StateDB.objects same
    refine ⟨[], rfl, same ▸ .refl _, fun _ h => absurd h not_mem_nil, fun b hb => ?_, fun _ _ => rfl,
      fun _ _ hx _ => ⟨hx, rfl⟩, fun _ h => absurd h not_mem_nil, fun _ => .inl rfl, 1, ?_, fun _ => hl⟩
    · rwa [object]
    · have dirties : (s.dirty ripemd).dirties ripemd = s.dirties ripemd + 1 := by
        simp only [Live.dirty, update_self]
      rw [same, dirties]
      omega
  | refund gas =>
    refine ⟨_, Over.plain (c := .state (.refund s.refund)) rfl ?_ rfl rfl rfl rfl rfl (by simp)
      fun _ => .inl rfl⟩
    rw [view_addRefund]
    exact StateDB.rewinds_append rfl rfl
  | log l =>
    refine ⟨_, Over.plain (c := .state (.addLog s.thash)) rfl ?_ rfl rfl rfl rfl rfl (by simp)
      fun _ => .inl rfl⟩
    rw [view_addLog]
    have quiet : ∀ amount, StateDB.Op.addLog l ≠ .addBalance ripemd amount := by simp
    exact StateDB.rewinds_exec h.backed quiet
  | preimage missing =>
    rename_i hash preimage
    refine ⟨_, Over.plain (c := .addPreimage hash) rfl ?_ rfl rfl rfl rfl rfl ?_ fun h => ?_⟩
    · have same : ({ s.append (.addPreimage hash) with
          preimages := update s.preimages hash (some preimage) } : Live).view = s.view := by
        apply StateDB.ext
        case objects => exact funext fun _ => object_congr rfl rfl
        all_goals rfl
      rw [same]
      exact .refl _
    · rintro h ⟨⟩
      exact missing
    · by_cases hh : h = hash
      · exact .inr (hh ▸ rfl)
      · exact .inl (update_of_ne hh ..)

theorem Undo.object (h : Undo s c t) (hb : c ≠ .state (.createObject b)) (live : s.object b ≠ none) :
    t.object b ≠ none := by
  have keep (hso : t.stateObjects b = s.stateObjects b) : t.object b ≠ none := by
    rwa [object_congr hso (congrFun h.trie b)]
  cases h with
  | create a =>
    have ne : b ≠ a := by
      rintro rfl
      exact hb rfl
    exact keep (update_of_ne ne ..)
  | reset a prev => exact object_setStateObject_ne_none live a prev
  | change => exact object_setStateObject_ne_none live _ _
  | refund | log => exact keep rfl
  | touch => exact live
  | preimage => exact keep rfl

theorem Undo.deleted (h : Undo s c t) (hx : t.stateObjects b = some x) (hd : x.deleted = true) :
    s.stateObjects b = some x ∧ t.stateObjectsDirty b = s.stateObjectsDirty b := by
  cases h with
  | create a =>
    by_cases hb : b = a
    · rw [hb] at hx
      cases (update_self ..).symm.trans hx
    · exact ⟨(update_of_ne hb ..).symm.trans hx, update_of_ne hb ..⟩
  | reset | change => exact ⟨stateObjects_of_deleted hx hd, rfl⟩
  | refund | log | touch | preimage => exact ⟨hx, rfl⟩

theorem Over.drop (h : Over loud s t (c :: new)) (sound : t.Sound) (hu : Undo t c u) :
    Over loud s (u.drop c (new ++ s.entries)) new := by
  have entries : t.entries = c :: (new ++ s.entries) := h.entries
  have older : ∀ {x}, x ∈ new → x ∈ c :: new := mem_cons_of_mem c
  have kept : ∀ a, s.object a ≠ none → c ≠ .state (.createObject a) := by
    rintro a ha rfl
    exact ha (h.created a mem_cons_self)
  have object (a : Address) : (u.drop c (new ++ s.entries)).object a = u.object a :=
    object_congr rfl rfl
  refine ⟨rfl, ?_, fun a hm => h.created a (older hm), fun a ha => ?_, fun a ha => ?_,
    fun a x hx hd => ?_, fun hash hm => h.fresh hash (older hm), fun hash => ?_, ?_⟩
  · cases c with
    | addPreimage hash =>
      rw [view_drop_preimage entries hu]
      exact h.rewinds
    | state e =>
      have popped := view_drop_state sound entries hu
      rw [popped]
      have depth : t.view.snapshot = (u.drop (.state e) (new ++ s.entries)).view.snapshot + 1 := by
        show (t.entries.filterMap Change.entry).length = _
        rw [entries]
        rfl
      have below : s.view.snapshot ≤ (u.drop (.state e) (new ++ s.entries)).view.snapshot := by
        show (s.entries.filterMap Change.entry).length ≤
          ((new ++ s.entries).filterMap Change.entry).length
        rw [filterMap_append, length_append]
        omega
      rw [popped] at depth below
      exact h.rewinds.back (by omega) depth.symm
  · rw [object]
    exact hu.object (kept a ha) (h.live a ha)
  · exact (hu.stateObjectsDirty (kept a ha)).trans (h.dirty a ha)
  · obtain ⟨ht, heq⟩ := hu.deleted hx hd
    obtain ⟨hs, heq'⟩ := h.deleted a x ht hd
    exact ⟨hs, heq.trans heq'⟩
  · show u.preimages hash = _ ∨ _
    rcases h.preimages hash with heq | hm
    · cases hu with
      | preimage h' =>
        by_cases hh : hash = h'
        · left
          rw [hh]
          exact (update_self ..).trans (h.fresh h' mem_cons_self).symm
        · exact .inl ((update_of_ne hh ..).trans heq)
      | _ => exact .inl heq
    · rcases mem_cons.1 hm with rfl | hm
      · cases hu
        exact .inl ((update_self ..).trans (h.fresh hash mem_cons_self).symm)
      · exact .inr hm
  · obtain ⟨n, hn, loudly⟩ := h.extra
    have count := view_dirties_cons entries ripemd
    have counted := sound.counted ripemd
    have dirties := dirties_drop (s := u) c (new ++ s.entries) ripemd
    rw [hu.dirties] at dirties
    refine ⟨n, ?_, loudly⟩
    change t.view.dirties ripemd = (u.drop c (new ++ s.entries)).view.dirties ripemd + _ at count
    omega

theorem Undo.revisions (h : Undo s c t) :
    t.validRevisions = s.validRevisions ∧ t.nextRevisionId = s.nextRevisionId := by
  cases h <;> exact ⟨rfl, rfl⟩

theorem Sound.pop (h : s.Sound) (hs : s.entries = c :: rest) :
    ∃ t, s.pop = some (t.drop c rest) ∧ Undo s c t := by
  obtain ⟨t, ht, hu⟩ := h.undo hs
  refine ⟨t, ?_, hu⟩
  rw [Live.pop, hs]
  dsimp only
  rw [ht]
  rfl

theorem Sound.popAll {k : ℕ} (h : s.Sound) (hk : k ≤ s.entries.length) :
    ∃ t, Live.popAll k s = some t ∧ t.Sound ∧ t.entries = s.entries.drop k ∧
      t.validRevisions = s.validRevisions ∧ t.nextRevisionId = s.nextRevisionId := by
  induction k generalizing s with
  | zero => exact ⟨s, rfl, h, rfl, rfl, rfl⟩
  | succ k ih =>
    obtain ⟨c, rest, hs⟩ := exists_cons_of_length_pos (Nat.zero_lt_of_lt hk)
    obtain ⟨t, ht, hu⟩ := h.pop hs
    rw [hs, length_cons] at hk
    obtain ⟨u, hpop, sound, entries, valid, next⟩ := ih (h.drop hs hu) (Nat.le_of_succ_le_succ hk)
    refine ⟨u, ?_, sound, ?_, valid.trans hu.revisions.1, next.trans hu.revisions.2⟩
    · rw [Live.popAll, ht]
      exact hpop
    · rw [entries, hs]
      rfl

theorem Over.popAll {k : ℕ} (base : Over loud s t new) (h : t.Sound) (hk : k ≤ new.length)
    (hpop : Live.popAll k t = some u) : Over loud s u (new.drop k) := by
  induction k generalizing t new with
  | zero =>
    cases hpop
    exact base
  | succ k ih =>
    obtain ⟨c, new, rfl⟩ := exists_cons_of_length_pos (Nat.zero_lt_of_lt hk)
    obtain ⟨v, hv, hu⟩ := h.pop base.entries
    rw [Live.popAll, hv] at hpop
    exact ih (base.drop h hu) (h.drop base.entries hu) (Nat.le_of_succ_le_succ hk) hpop

/-! ## Revisions -/

/-- The revisions are in order. -/
structure Stacked (s : Live) : Prop where
  bounded : ∀ r ∈ s.validRevisions, r.id < s.nextRevisionId ∧ r.journalIndex ≤ s.entries.length
  sorted : s.validRevisions.Pairwise fun r r' => r.id < r'.id ∧ r.journalIndex ≤ r'.journalIndex

/-- With other revisions. -/
def withRevisions (s : Live) (valid : List Revision) (next : ℕ) : Live :=
  { s with validRevisions := valid, nextRevisionId := next }

theorem Sound.withRevisions (h : s.Sound) (valid : List Revision) (next : ℕ) :
    (s.withRevisions valid next).Sound :=
  ⟨fun a => (h.tidy a).congr rfl rfl rfl id, h.created, h.held, h.ordered, h.logged, h.counted, h.exact⟩

theorem Over.withRevisions (h : Over loud s t new) (valid : List Revision) (next : ℕ) :
    Over loud s (t.withRevisions valid next) new := by
  have same : (t.withRevisions valid next).view = t.view :=
    view_of_eq rfl rfl rfl rfl rfl rfl rfl rfl rfl
  have object : (t.withRevisions valid next).object = t.object := congrArg StateDB.objects same
  refine ⟨h.entries, ?_, h.created, fun a ha => ?_, h.dirty, h.deleted, h.fresh, h.preimages, h.extra⟩
  · rw [same]
    exact h.rewinds
  · rw [object]
    exact h.live a ha

variable {pre later : List Revision} {r : Revision}

theorem revertToSnapshot_eq (h : s.Stacked) (hv : s.validRevisions = pre ++ r :: later) :
    s.revertToSnapshot r.id = (popAll (s.entries.length - r.journalIndex) s).map fun t =>
      t.withRevisions (t.validRevisions.take pre.length) t.nextRevisionId := by
  have sorted := h.sorted
  rw [hv] at sorted
  obtain ⟨-, hr, before⟩ := pairwise_append.1 sorted
  have found : Search.search (fun i => decide (r.id ≤ (s.validRevisions.getD i ⟨0, 0⟩).id))
      s.validRevisions.length = pre.length := by
    rw [hv]
    refine Search.search_eq (by simp) (fun m hm => ?_) fun m hle hm => ?_
    · have := (before _ (getElem_mem hm) r mem_cons_self).1
      simp only [getD_eq_getElem?_getD, getElem?_append_left hm, getElem?_eq_getElem hm,
        getD_some, decide_eq_false_iff_not]
      omega
    · simp only [getD_eq_getElem?_getD, getElem?_append_right hle, decide_eq_true_eq]
      cases hi : m - pre.length with
      | zero => exact le_rfl
      | succ i =>
        have hlen : i < later.length := by
          rw [length_append, length_cons] at hm
          omega
        rw [getElem?_cons_succ, getElem?_eq_getElem hlen]
        exact ((pairwise_cons.1 hr).1 _ (getElem_mem hlen)).1.le
  have here : s.validRevisions[pre.length]? = some r := by
    rw [hv, getElem?_append_right le_rfl, Nat.sub_self]
    rfl
  have inside : r ∈ s.validRevisions := hv ▸ mem_append_right pre mem_cons_self
  unfold revertToSnapshot
  rw [found]
  dsimp only
  rw [here]
  dsimp only
  rw [if_neg (not_or.2 ⟨not_not.2 rfl, Nat.not_lt.2 (h.bounded r inside).2⟩)]
  rfl

theorem revertToSnapshot_cases {id : ℕ} (h : s.Stacked) (hr : s.revertToSnapshot id = some t) :
    ∃ pre r later u, s.validRevisions = pre ++ r :: later ∧ r.id = id ∧
      popAll (s.entries.length - r.journalIndex) s = some u ∧
      t = u.withRevisions (u.validRevisions.take pre.length) u.nextRevisionId := by
  obtain ⟨r, hm, hid⟩ : ∃ r ∈ s.validRevisions, r.id = id := by
    unfold revertToSnapshot at hr
    dsimp only at hr
    split at hr
    · cases hr
    · rename_i r hi
      split_ifs at hr with hne
      exact ⟨r, mem_of_getElem? hi, not_not.1 (not_or.1 hne).1⟩
  obtain ⟨pre, later, hv⟩ := append_of_mem hm
  subst hid
  rw [revertToSnapshot_eq h hv, map_eq_some_iff] at hr
  obtain ⟨u, hu, rfl⟩ := hr
  exact ⟨pre, r, later, u, hv, rfl, hu, rfl⟩

theorem revert_popAll (h : s.Sound) (hs : s.Stacked) (hv : s.validRevisions = pre ++ r :: later) :
    ∃ t, popAll (s.entries.length - r.journalIndex) s = some t ∧
      (t.withRevisions (t.validRevisions.take pre.length) t.nextRevisionId).Sound ∧
      (t.withRevisions (t.validRevisions.take pre.length) t.nextRevisionId).Stacked ∧
      t.validRevisions.take pre.length = pre ∧ t.nextRevisionId = s.nextRevisionId := by
  have inside : r ∈ s.validRevisions := hv ▸ mem_append_right pre mem_cons_self
  obtain ⟨t, hpop, sound, entries, valid, next⟩ := h.popAll (Nat.sub_le s.entries.length r.journalIndex)
  have kept : t.validRevisions.take pre.length = pre := by
    rw [valid, hv, take_left]
  have sorted := hs.sorted
  rw [hv] at sorted
  obtain ⟨first, -, before⟩ := pairwise_append.1 sorted
  refine ⟨t, hpop, sound.withRevisions .., ⟨fun r' hr' => ?_, ?_⟩, kept, next⟩
  · change r' ∈ t.validRevisions.take pre.length at hr'
    rw [kept] at hr'
    have bound := (hs.bounded r inside).2
    refine ⟨?_, ?_⟩
    · show r'.id < t.nextRevisionId
      rw [next]
      exact (hs.bounded r' (hv ▸ mem_append_left _ hr')).1
    · show r'.journalIndex ≤ t.entries.length
      rw [entries, length_drop]
      have := (before r' hr' r mem_cons_self).2
      omega
  · show (t.validRevisions.take pre.length).Pairwise _
    rw [kept]
    exact first

/-! ## Every state -/

/-- No account that was removed as an empty one is still to be written. -/
def Clean (s : Live) : Prop :=
  ∀ a x, s.stateObjects a = some x → x.deleted = true → s.isDirty a = true → x.suicided = true

/-- Empty accounts do not come back: all calls of `Finalise` and `Commit` agree about them. -/
def Allowed (s : Live) (c : Call) : Prop := c = .commit false → s.Clean

theorem sound_of_clear (he : s.entries = []) (hd : s.dirties = fun _ => 0) (tidy : ∀ a, s.Tidy a) :
    s.Sound := by
  have counts (a : Address) : s.view.dirties a = 0 := by
    show (s.entries.filterMap Change.entry).countP _ = 0
    rw [he]
    rfl
  refine ⟨tidy, ?_, ?_, ?_, fun h => ?_, fun a => ?_, fun a _ => ?_⟩
  · rw [he]
    exact fun a h => absurd h not_mem_nil
  · rw [he]
    exact fun e a h => absurd h not_mem_nil
  · rw [he]
    exact .nil
  · rw [he]
    exact Nat.zero_le _
  · rw [counts]
    exact Nat.zero_le _
  · rw [counts, hd]

theorem sound_new (trie : Address → Option StateObject) : (Live.new trie).Sound :=
  sound_of_clear rfl rfl fun _ => ⟨nofun, nofun, nofun, nofun⟩

variable {d : Bool}

theorem removed_iff : Removed x d = true ↔ x.suicided = true ∨ d = true ∧ x.empty = true := by
  simp only [Removed, Bool.or_eq_true, Bool.and_eq_true]

theorem map_delete_eq_some {so : Option Object} [DecidablePred p]
    (h : so.map (fun o => if p o then { o with deleted := true } else o) = some x) :
    ∃ y, so = some y ∧ x.toStateObject = y.toStateObject ∧
      (x.deleted = true → p y ∨ y.deleted = true) := by
  obtain ⟨y, rfl, rfl⟩ := map_eq_some_iff.1 h
  refine ⟨y, rfl, ?_, fun hx => ?_⟩
  · split_ifs <;> rfl
  · by_cases hp : p y
    · exact .inl hp
    · rw [if_neg hp] at hx
      exact .inr hx

theorem Tidy.of_delete {t : Live} [DecidablePred p] (tidy : s.Tidy a)
    (map : t.stateObjects a = (s.stateObjects a).map fun o => if p o then { o with deleted := true }
      else o)
    (clear : t.dirties a = 0) (removed : ∀ y, p y → y.suicided = true ∨ y.empty = true)
    (backed : ∀ y, s.stateObjects a = some y → p y ∨ y.deleted = true → t.trie a = none)
    (keyed : s.stateObjects a = none → t.isDirty a = true → t.trie a = none) : t.Tidy a := by
  refine ⟨fun x hx hd => ?_, fun x hx hd => ?_, fun x _ hne => absurd clear hne, fun hn hi => ?_⟩
  · obtain ⟨y, hy, -, hdel⟩ := map_delete_eq_some (map ▸ hx)
    exact backed y hy (hdel hd)
  · obtain ⟨y, hy, heq, hdel⟩ := map_delete_eq_some (map ▸ hx)
    rw [heq]
    rcases hdel hd with hrem | hdel
    · exact removed y hrem
    · exact tidy.dead y hy hdel
  · exact keyed (map_eq_none_iff.1 (map ▸ hn)) hi

theorem Sound.finalise (h : s.Sound) (d : Bool) : (s.finalise d).Sound := by
  refine sound_of_clear rfl rfl fun a => ?_
  have tidy := h.tidy a
  refine tidy.of_delete rfl rfl (fun y hy => (removed_iff.1 hy.2).imp_right And.right)
    (fun y hy hcase => ?_) fun none hi => ?_
  · simp only [Live.finalise, clearJournalAndRefund, hy]
    rcases hcase with ⟨hne, hrem⟩ | hdel
    · rw [if_neg hne, if_pos hrem]
    · rw [if_pos ?_]
      · exact tidy.backed y hy hdel
      · by_contra hne
        rw [tidy.alive y hy hne] at hdel
        cases hdel
  · simp only [Live.finalise, clearJournalAndRefund, none]
    refine tidy.keyed none ?_
    simp only [isDirty, Live.finalise, clearJournalAndRefund, none, isSome_none, Bool.and_false,
      Bool.or_false, ne_eq, not_true_eq_false, decide_false] at hi
    simp only [isDirty, hi, Bool.true_or]

theorem Tidy.removed (tidy : s.Tidy a) (allowed : d = true ∨ s.Clean) (hx : s.stateObjects a = some x)
    (hdel : x.deleted = true) (hdirty : s.isDirty a = true) : Removed x (s.isDirty a && d) = true := by
  refine removed_iff.2 ?_
  rcases allowed with rfl | clean
  · exact (tidy.dead x hx hdel).imp_right fun he => ⟨by rw [hdirty]; rfl, he⟩
  · exact .inl (clean a x hx hdel hdirty)

theorem Sound.commit (h : s.Sound) (allowed : d = true ∨ s.Clean) : (s.commit d).Sound := by
  refine sound_of_clear rfl rfl fun a => ?_
  have tidy := h.tidy a
  refine tidy.of_delete rfl rfl (fun y hy => (removed_iff.1 hy).imp_right And.right)
    (fun y hy hcase => ?_) fun none hi => ?_
  · simp only [Live.commit, clearJournalAndRefund, hy]
    split_ifs with hrem hdirty
    · rfl
    · exact absurd (tidy.removed allowed hy (hcase.resolve_left hrem) hdirty) hrem
    · exact tidy.backed y hy (hcase.resolve_left hrem)
  · simp only [Live.commit, clearJournalAndRefund, none]
    refine tidy.keyed none ?_
    simpa [isDirty, Live.commit, clearJournalAndRefund, none] using hi

theorem Sound.copy (h : s.Sound) : s.copy.Sound := by
  refine sound_of_clear rfl rfl fun a => ?_
  have tidy := h.tidy a
  have old : ∀ x, s.copy.stateObjects a = some x → s.stateObjects a = some x := by
    intro x hx
    simp only [Live.copy] at hx
    split_ifs at hx
    exact hx
  refine ⟨fun x hx => tidy.backed x (old x hx), fun x hx => tidy.dead x (old x hx),
    fun x _ hne => absurd rfl hne, fun hn hi => ?_⟩
  have dirty : s.isDirty a = true := by
    simp only [isDirty, Live.copy, ne_eq, not_true_eq_false, decide_false, Bool.or_false,
      Bool.or_eq_true, Bool.and_eq_true] at hi
    simp only [isDirty, Bool.or_eq_true]
    exact hi.imp_right And.left
  refine tidy.keyed ?_ dirty
  simpa only [Live.copy, dirty, if_true] using hn

theorem Edit.revisions (h : Edit loud s t) : t.validRevisions = s.validRevisions ∧
    t.nextRevisionId = s.nextRevisionId ∧ s.entries.length ≤ t.entries.length := by
  cases h with
  | load | mark => exact ⟨rfl, rfl, le_rfl⟩
  | write | refund | log | preimage => exact ⟨rfl, rfl, Nat.le_succ _⟩

theorem Edits.spec (edits : Edits loud s t) (h : s.Sound) (hs : s.Stacked) :
    t.Sound ∧ t.Stacked ∧ (∃ new, Over loud s t new) ∧ t.validRevisions = s.validRevisions ∧
      t.nextRevisionId = s.nextRevisionId := by
  induction edits with
  | refl => exact ⟨h, hs, ⟨[], .refl loud s⟩, rfl, rfl⟩
  | tail _ edit ih =>
    obtain ⟨sound, stacked, ⟨new, base⟩, valid, next⟩ := ih
    obtain ⟨hvalid, hnext, hlen⟩ := edit.revisions
    obtain ⟨new', hover⟩ := edit.over sound
    refine ⟨sound.edit edit, ⟨fun r hr => ?_, ?_⟩, ⟨_, base.trans hover⟩, hvalid.trans valid,
      hnext.trans next⟩
    · rw [hvalid] at hr
      have := stacked.bounded r hr
      omega
    · rw [hvalid]
      exact stacked.sorted

theorem stacked_nil (h : s.validRevisions = []) : s.Stacked :=
  ⟨fun _ hr => absurd (h ▸ hr) not_mem_nil, h ▸ .nil⟩

theorem Stacked.snapshot (hs : s.Stacked) : s.snapshot.2.Stacked := by
  refine ⟨fun r hr => ?_, ?_⟩
  · rcases mem_append.1 hr with hr | hr
    · exact ⟨(hs.bounded r hr).1.trans (Nat.lt_succ_self _), (hs.bounded r hr).2⟩
    · rw [mem_singleton.1 hr]
      exact ⟨Nat.lt_succ_self _, le_rfl⟩
  · refine pairwise_append.2 ⟨hs.sorted, pairwise_singleton .., fun r hr r' hr' => ?_⟩
    rw [mem_singleton.1 hr']
    exact hs.bounded r hr

theorem edits_getStateObject (loud : Prop) (s : Live) (a : Address) :
    Edits loud s (s.getStateObject a).1 := by
  rcases getStateObject_cases loud s a with ⟨t, o, got, edits, -⟩ | ⟨got, -⟩
  · rwa [got]
  · rw [got]

theorem sound_step {c : Call} (h : s.Sound ∧ s.Stacked) (allowed : s.Allowed c)
    (hstep : s.step c = some t) : t.Sound ∧ t.Stacked := by
  obtain ⟨sound, stacked⟩ := h
  cases c with
  | mutate m =>
    cases hstep
    obtain ⟨h, h', -⟩ := (edits_exec s m).spec sound stacked
    exact ⟨h, h'⟩
  | read a =>
    cases hstep
    obtain ⟨h, h', -⟩ := (edits_getStateObject True s a).spec sound stacked
    exact ⟨h, h'⟩
  | snapshot =>
    cases hstep
    exact ⟨sound.withRevisions .., stacked.snapshot⟩
  | revert id =>
    obtain ⟨pre, r, later, u, hv, -, hu, rfl⟩ := revertToSnapshot_cases stacked hstep
    obtain ⟨u', hu', h, h', -⟩ := revert_popAll sound stacked hv
    cases hu.symm.trans hu'
    exact ⟨h, h'⟩
  | finalise d =>
    cases hstep
    exact ⟨sound.finalise d, stacked_nil rfl⟩
  | commit d =>
    cases hstep
    refine ⟨sound.commit ?_, stacked_nil rfl⟩
    cases d with
    | true => exact .inl rfl
    | false => exact .inr (allowed rfl)
  | prepare thash bhash ti =>
    cases hstep
    exact ⟨⟨fun a => (sound.tidy a).congr rfl rfl rfl id, sound.created, sound.held, sound.ordered,
      sound.logged, sound.counted, sound.exact⟩, stacked.bounded, stacked.sorted⟩
  | copy =>
    cases hstep
    exact ⟨sound.copy, stacked_nil rfl⟩
  | reset trie =>
    cases hstep
    exact ⟨(sound_new trie).withRevisions .., stacked_nil rfl⟩

/-! ## Reverting -/

/-- The calls between a snapshot and reverting to it: reverting goes to later snapshots. -/
def Nested (id : ℕ) : Call → Prop
  | .mutate _ | .read _ | .snapshot => True
  | .revert id' => id < id'
  | _ => False

/-- A state `t` between the snapshot of `s` and reverting to it. -/
structure Above (loud : Prop) (s t : Live) : Prop where
  base : ∃ new, Over loud s t new
  sound : t.Sound
  stacked : t.Stacked
  revision : s.snapshot.2.validRevisions <+: t.validRevisions
  next : s.nextRevisionId < t.nextRevisionId

theorem above_snapshot (loud : Prop) (h : s.Sound) (hs : s.Stacked) : Above loud s s.snapshot.2 :=
  ⟨⟨[], (Over.refl loud s).withRevisions ..⟩, h.withRevisions .., hs.snapshot, prefix_rfl,
    Nat.lt_succ_self _⟩

theorem Above.edits (h : Above loud s t) (edits : Edits loud t u) : Above loud s u := by
  obtain ⟨new, base⟩ := h.base
  obtain ⟨sound, stacked, ⟨new', hover⟩, valid, next⟩ := edits.spec h.sound h.stacked
  exact ⟨⟨_, base.trans hover⟩, sound, stacked, valid ▸ h.revision, next ▸ h.next⟩

theorem Edits.mono {loud' : Prop} (himp : loud → loud') (h : Edits loud s t) : Edits loud' s t := by
  refine Relation.ReflTransGen.mono (fun s t edit => ?_) _ _ h
  cases edit with
  | load missing htrie => exact .load missing htrie
  | write fits => exact .write fits
  | mark hl held => exact .mark (himp hl) held
  | refund gas => exact .refund gas
  | log l => exact .log l
  | preimage missing => exact .preimage missing

theorem Above.revert {id : ℕ} (hs : s.Stacked) (h : Above loud s t) (hid : s.nextRevisionId < id)
    (hr : t.revertToSnapshot id = some u) : Above loud s u := by
  obtain ⟨pre, r, later, v, hv, rfl, hpop, rfl⟩ := revertToSnapshot_cases h.stacked hr
  obtain ⟨v', hpop', sound, stacked, kept, next⟩ := revert_popAll h.sound h.stacked hv
  cases hpop.symm.trans hpop'
  have longer : s.snapshot.2.validRevisions.length ≤ pre.length := by
    by_contra hlt
    -- otherwise the revision is one of the earlier ones
    have early : r ∈ s.snapshot.2.validRevisions := by
      have hi : t.validRevisions[pre.length]? = some r := by
        rw [hv, getElem?_append_right le_rfl, Nat.sub_self]
        rfl
      obtain ⟨rest, hrest⟩ := h.revision
      rw [← hrest, getElem?_append_left (Nat.not_le.1 hlt)] at hi
      exact mem_of_getElem? hi
    rcases mem_append.1 early with hm | hm
    · have := (hs.bounded r hm).1
      omega
    · rw [mem_singleton.1 hm] at hid
      exact Nat.lt_irrefl _ hid
  have before : s.snapshot.2.validRevisions <+: pre :=
    prefix_of_prefix_length_le (hv ▸ h.revision) (prefix_append ..) longer
  have sorted := h.stacked.sorted
  rw [hv] at sorted
  have own : (⟨s.nextRevisionId, s.entries.length⟩ : Revision) ∈ pre :=
    before.mem (mem_append_right _ mem_cons_self)
  have index : s.entries.length ≤ r.journalIndex :=
    ((pairwise_append.1 sorted).2.2 _ own r mem_cons_self).2
  obtain ⟨new, base⟩ := h.base
  refine ⟨⟨_, (base.popAll h.sound ?_ hpop).withRevisions ..⟩, sound, stacked, ?_, ?_⟩
  · rw [base.entries, length_append]
    omega
  · show _ <+: v.validRevisions.take pre.length
    rw [kept]
    exact before
  · show _ < v.nextRevisionId
    rw [next]
    exact h.next

theorem Above.step {c : Call} (hs : s.Stacked) (h : Above loud s t) (nested : Nested s.nextRevisionId c)
    (hloud : c = .mutate (.addBalance ripemd 0) → loud) (hstep : t.step c = some u) :
    Above loud s u := by
  cases c with
  | mutate m =>
    cases hstep
    refine h.edits ((edits_exec t m).mono ?_)
    rintro rfl
    exact hloud rfl
  | read a =>
    cases hstep
    exact h.edits (edits_getStateObject loud t a)
  | snapshot =>
    cases hstep
    obtain ⟨new, base⟩ := h.base
    exact ⟨⟨new, base.withRevisions ..⟩, h.sound.withRevisions .., h.stacked.snapshot,
      h.revision.trans (prefix_append ..), h.next.trans (Nat.lt_succ_self _)⟩
  | revert id => exact h.revert hs nested hstep
  | finalise | commit | prepare | copy | reset => exact nested.elim

theorem Above.reverts (h : Above loud s t) :
    ∃ u, t.revertToSnapshot s.nextRevisionId = some u ∧ u.Sound ∧ Over loud s u [] := by
  obtain ⟨later, hlater⟩ := h.revision
  have hv : t.validRevisions = s.validRevisions ++ ⟨s.nextRevisionId, s.entries.length⟩ :: later := by
    rw [← hlater]
    exact append_assoc ..
  obtain ⟨u, hpop, sound, -⟩ := revert_popAll h.sound h.stacked hv
  have reverted := revertToSnapshot_eq h.stacked hv
  rw [hpop] at reverted
  obtain ⟨new, base⟩ := h.base
  have all : t.entries.length - s.entries.length = new.length := by
    rw [base.entries, length_append, Nat.add_sub_cancel]
  have popped := base.popAll h.sound all.le hpop
  rw [all, drop_length] at popped
  exact ⟨_, reverted, sound, popped.withRevisions ..⟩

/-! ## What is restored -/

/-- All that the readers return is as it was. -/
structure Restored (s u : Live) : Prop where
  exist : ∀ a, u.exist a = s.exist a
  empty : ∀ a, u.empty a = s.empty a
  balance : ∀ a, u.getBalance a = s.getBalance a
  nonce : ∀ a, u.getNonce a = s.getNonce a
  code : ∀ a, u.getCode a = s.getCode a
  storage : ∀ a key, u.getState a key = s.getState a key
  suicided : ∀ a, u.hasSuicided a = s.hasSuicided a
  refund : u.refund = s.refund
  logs : ∀ hash, u.logs hash = s.logs hash
  preimages : ∀ hash, u.preimages hash = s.preimages hash

theorem Over.view_eq (h : Over loud s u []) : u.view = s.view := by
  refine h.rewinds.eq ?_
  show (u.entries.filterMap Change.entry).length = _
  rw [h.entries]
  rfl

theorem Over.restored (h : Over loud s u []) : Restored s u := by
  have same := h.view_eq
  have object : u.object = s.object := congrArg StateDB.objects same
  refine ⟨fun a => ?_, fun a => ?_, fun a => ?_, fun a => ?_, fun a => ?_, fun a key => ?_, fun a => ?_,
    congrArg StateDB.refund same, congrFun (congrArg StateDB.logs same),
    fun hash => (h.preimages hash).resolve_right not_mem_nil⟩
  · rw [exist, exist, object]
  · rw [empty, empty, object]
  · rw [getBalance, getBalance, object]
  · rw [getNonce, getNonce, object]
  · rw [getCode, getCode, object]
  · rw [getState, getState, object]
  · rw [hasSuicided, hasSuicided, object]

/-- What is written to the trie for an address that counts as changed. -/
def written (s : Live) (deleteEmptyObjects : Bool) (a : Address) : Option StateObject :=
  match s.object a with
  | none => s.trie a
  | some o => if o.suicided || (deleteEmptyObjects && o.empty) then none else some o

theorem written_of_none (h : s.object a = none) : s.written d a = s.trie a := by
  rw [written, h]

theorem finalise_trie (h : s.Sound) (d : Bool) (a : Address) :
    (s.finalise d).trie a = if s.dirties a = 0 then s.trie a else s.written d a := by
  have tidy := h.tidy a
  simp only [finalise, clearJournalAndRefund]
  cases hso : s.stateObjects a with
  | none =>
    split_ifs with hd
    · rfl
    · have dirty : s.isDirty a = true := by simp [isDirty, hd]
      have none : s.object a = none := by rw [object_of_none hso, tidy.keyed hso dirty]; rfl
      exact (written_of_none none).symm
  | some x =>
    dsimp only
    by_cases hd : s.dirties a = 0
    · rw [if_pos hd, if_pos hd]
    · have object : s.object a = some x.toStateObject := by
        rw [object_of_some hso, tidy.alive x hso hd]
        rfl
      rw [if_neg hd, if_neg hd, written, object]
      rfl

/-- What `Commit` does to an address that it does not write. -/
def skipped (s : Live) (a : Address) : Option StateObject :=
  match s.object a with
  | none => s.trie a
  | some o => if o.suicided then none else s.trie a

theorem commit_trie (h : s.Sound) (allowed : d = true ∨ s.Clean) (a : Address) :
    (s.commit d).trie a = if s.isDirty a then s.written d a else s.skipped a := by
  have tidy := h.tidy a
  simp only [commit, clearJournalAndRefund]
  cases hso : s.stateObjects a with
  | none =>
    cases htr : s.trie a with
    | none =>
      have none : s.object a = none := by rw [object_of_none hso, htr]; rfl
      rw [written_of_none none, skipped, none, htr, ite_self]
    | some data =>
      have object : s.object a = some (newObject data) := by rw [object_of_none hso, htr]; rfl
      rw [if_neg ?_, skipped, object, htr]
      · rfl
      · intro hi
        rw [tidy.keyed hso hi] at htr
        cases htr
  | some x =>
    dsimp only
    cases hdel : x.deleted with
    | true =>
      have none : s.object a = none := by rw [object_of_some hso, hdel]; rfl
      have gone := tidy.backed x hso hdel
      rw [written_of_none none, skipped, none, gone, ite_self]
      split_ifs with hrem hdirty
      · rfl
      · exact absurd (tidy.removed allowed hso hdel hdirty) hrem
      · rfl
    | false =>
      have object : s.object a = some x.toStateObject := by rw [object_of_some hso, hdel]; rfl
      rw [written, skipped, object]
      cases s.isDirty a with
      | true => rfl
      | false => simp [Removed]

theorem trie_cases {new old : Address → Option StateObject}
    (root : (Address → Option StateObject) → Hash) (same : ∀ a, a ≠ ripemd → new a = old a)
    (ripe : new ripemd = old ripemd ∨ loud ∧ new ripemd = s.written d ripemd) :
    root new = root old ∨ loud ∧ root new = root (Function.update old ripemd (s.written d ripemd)) := by
  rcases ripe with heq | ⟨hl, heq⟩
  · left
    congr 1
    funext a
    by_cases ha : a = ripemd
    · rw [ha, heq]
    · exact same a ha
  · right
    refine ⟨hl, ?_⟩
    congr 1
    funext a
    by_cases ha : a = ripemd
    · rw [ha, heq, update_self]
    · rw [update_of_ne ha]
      exact same a ha

section Roots

variable {u : Live} (base : Over loud s u []) (h : s.Sound) (hu : u.Sound)

include base h hu

theorem Over.dirties (ha : a ≠ ripemd) : u.dirties a = s.dirties a := by
  rw [hu.exact a ha, h.exact a ha, base.view_eq]

omit h hu in
theorem Over.marked : u.dirties ripemd = s.dirties ripemd ∨ u.dirties ripemd ≠ 0 ∧ loud := by
  obtain ⟨n, hn, hl⟩ := base.extra
  rw [base.view_eq] at hn
  rcases Nat.eq_zero_or_pos n with rfl | hpos
  · left
    omega
  · exact .inr ⟨by omega, hl (by omega)⟩

omit h hu in
theorem Over.written (d : Bool) (a : Address) : u.written d a = s.written d a := by
  have object : u.object = s.object := congrArg StateDB.objects base.view_eq
  have trie : u.trie = s.trie := congrArg StateDB.trie base.view_eq
  rw [Live.written, Live.written, object, trie]

omit h in
theorem Over.clean (clean : s.Clean) : u.Clean := by
  intro a x hx hd hdirty
  obtain ⟨hs, heq⟩ := base.deleted a x hx hd
  refine clean a x hs hd ?_
  have zero : u.dirties a = 0 := by
    by_contra hne
    rw [(hu.tidy a).alive x hx hne] at hd
    cases hd
  simp only [isDirty, zero, ne_eq, not_true_eq_false, decide_false, Bool.or_false] at hdirty
  simp only [isDirty, ← heq, hdirty, Bool.true_or]

theorem Over.intermediateRoot (root : (Address → Option StateObject) → Hash) (d : Bool) :
    u.intermediateRoot root d = s.intermediateRoot root d ∨ loud ∧
      u.intermediateRoot root d =
        root (Function.update (s.finalise d).trie ripemd (s.written d ripemd)) := by
  have trie : u.trie = s.trie := congrArg StateDB.trie base.view_eq
  have same : ∀ a, u.dirties a = s.dirties a → (u.finalise d).trie a = (s.finalise d).trie a := by
    intro a ha
    rw [finalise_trie hu, finalise_trie h, ha, trie, base.written]
  refine trie_cases root (fun a ha => same a (base.dirties h hu ha)) ?_
  rcases base.marked with heq | ⟨hne, hl⟩
  · exact .inl (same ripemd heq)
  · right
    rw [finalise_trie hu, if_neg hne, base.written]
    exact ⟨hl, rfl⟩

theorem Over.commitRoot (root : (Address → Option StateObject) → Hash) {d : Bool}
    (allowed : d = true ∨ s.Clean) : u.commitRoot root d = s.commitRoot root d ∨ loud ∧
      u.commitRoot root d = root (Function.update (s.commit d).trie ripemd (s.written d ripemd)) := by
  have trie : u.trie = s.trie := congrArg StateDB.trie base.view_eq
  have object : u.object = s.object := congrArg StateDB.objects base.view_eq
  have allowed' : d = true ∨ u.Clean := allowed.imp_right (base.clean hu)
  have skipped (a : Address) : u.skipped a = s.skipped a := by
    rw [Live.skipped, Live.skipped, object, trie]
  have same : ∀ a, u.dirties a = s.dirties a → (u.commit d).trie a = (s.commit d).trie a := by
    intro a ha
    rw [commit_trie hu allowed', commit_trie h allowed, skipped, base.written]
    by_cases hn : s.object a = none
    · rw [written_of_none hn, Live.skipped, hn, ite_self, ite_self]
    · have dirty : u.isDirty a = s.isDirty a := by rw [isDirty, isDirty, ha, base.dirty a hn]
      rw [dirty]
  refine trie_cases root (fun a ha => same a (base.dirties h hu ha)) ?_
  rcases base.marked with heq | ⟨hne, hl⟩
  · exact .inl (same ripemd heq)
  · right
    have dirty : u.isDirty ripemd = true := by simp [isDirty, hne]
    rw [commit_trie hu allowed', dirty, base.written]
    exact ⟨hl, rfl⟩

end Roots

/-- An empty RIPEMD contract is touched. -/
def Touched (calls : List Call) : Prop := .mutate (.addBalance ripemd 0) ∈ calls

theorem above_run {nested : List Call} (hs : s.Stacked) (h : Above loud s t)
    (hn : ∀ c ∈ nested, Nested s.nextRevisionId c) (hl : Touched nested → loud)
    (ran : Runs.run step t nested = some u) : Above loud s u := by
  induction nested generalizing t with
  | nil =>
    cases ran
    exact h
  | cons c nested ih =>
    obtain ⟨v, hv, ran⟩ := bind_eq_some_iff.1 ran
    refine ih (h.step hs (hn c mem_cons_self) (fun heq => hl ?_) hv)
      (fun c hc => hn c (mem_cons_of_mem _ hc)) (fun ht => hl (mem_cons_of_mem _ ht)) ran
    rw [heq]
    exact mem_cons_self

/-- `RevertToSnapshot` restores all that the readers return.  The roots are those of the snapshot,
but that after a transfer of nothing the RIPEMD contract may count as changed. -/
theorem revert_restores {trie : Address → Option StateObject} {calls nested : List Call}
    (allowed : Runs.Throughout step Allowed (Live.new trie) calls)
    (hs : Runs.run step (Live.new trie) calls = some s) (hn : ∀ c ∈ nested, Nested s.snapshot.1 c)
    (ht : Runs.run step s.snapshot.2 nested = some t) :
    ∃ u, t.revertToSnapshot s.snapshot.1 = some u ∧ Restored s u ∧
      (∀ root d, u.intermediateRoot root d = s.intermediateRoot root d ∨ Touched nested ∧
        u.intermediateRoot root d =
          root (Function.update (s.finalise d).trie ripemd (s.written d ripemd))) ∧
      ∀ root d, d = true ∨ s.Clean → u.commitRoot root d = s.commitRoot root d ∨ Touched nested ∧
        u.commitRoot root d = root (Function.update (s.commit d).trie ripemd (s.written d ripemd)) := by
  have start : (Live.new trie).Sound ∧ (Live.new trie).Stacked := ⟨sound_new trie, stacked_nil rfl⟩
  obtain ⟨sound, stacked⟩ := Runs.run_invariant_of_throughout (fun _ _ _ => sound_step) start allowed hs
  have above := above_run stacked (above_snapshot (Touched nested) sound stacked) hn id ht
  obtain ⟨u, hu, sound', base⟩ := above.reverts
  exact ⟨u, hu, base.restored, base.intermediateRoot sound sound',
    fun root d => base.commitRoot sound sound' root⟩

theorem revert_restores_nested : ∃ t u, Runs.run step (Live.new fun _ => none).snapshot.2
        [.mutate (.addBalance 5 7), .snapshot, .mutate (.setNonce 5 1), .revert 1,
          .mutate (.suicide 5)] = some t ∧
      t.revertToSnapshot 0 = some u ∧ Restored (Live.new fun _ => none) u := by
  obtain ⟨t, ht⟩ : ∃ t, Runs.run step (Live.new fun _ => none).snapshot.2
      [.mutate (.addBalance 5 7), .snapshot, .mutate (.setNonce 5 1), .revert 1,
        .mutate (.suicide 5)] = some t :=
    isSome_iff_exists.1 (by decide +kernel)
  have nested : ∀ c ∈ ([.mutate (.addBalance 5 7), .snapshot, .mutate (.setNonce 5 1), .revert 1,
      .mutate (.suicide 5)] : List Call), Nested (Live.new fun _ => none).snapshot.1 c := by
    simp [Nested, Live.new, snapshot]
  have allowed : Runs.Throughout step Allowed (Live.new fun _ => none) [] := trivial
  obtain ⟨u, hu, restored, -⟩ := revert_restores allowed rfl nested ht
  exact ⟨t, u, ht, hu, restored⟩

/-- Reverting to a valid revision never panics. -/
theorem revertToSnapshot_isSome {trie : Address → Option StateObject} {calls : List Call}
    (allowed : Runs.Throughout step Allowed (Live.new trie) calls)
    (ran : Runs.run step (Live.new trie) calls = some s) (hr : r ∈ s.validRevisions) :
    (s.revertToSnapshot r.id).isSome := by
  obtain ⟨sound, stacked⟩ := Runs.run_invariant_of_throughout (I := fun s => s.Sound ∧ s.Stacked)
    (fun _ _ _ => sound_step) ⟨sound_new trie, stacked_nil rfl⟩ allowed ran
  obtain ⟨pre, later, hv⟩ := append_of_mem hr
  obtain ⟨t, ht, -⟩ := revert_popAll sound stacked hv
  rw [revertToSnapshot_eq stacked hv, ht]
  rfl

theorem revertToSnapshot_taken : ∃ t, Runs.run step (Live.new fun _ => none)
      [.snapshot, .mutate (.addBalance 5 7), .snapshot, .mutate (.setNonce 5 1),
        .mutate (.suicide 5)] = some t ∧
    t.entries.length = 4 ∧ (t.revertToSnapshot 0).isSome := by
  obtain ⟨t, ran, books⟩ := Option.map_eq_some_iff.1 (show (Runs.run step (Live.new fun _ => none)
    [.snapshot, .mutate (.addBalance 5 7), .snapshot, .mutate (.setNonce 5 1),
      .mutate (.suicide 5)]).map
      (fun t => (t.entries.length, t.validRevisions.map Revision.id)) = some (4, [0, 1]) by
        decide +kernel)
  obtain ⟨four, ids⟩ := Prod.mk.inj books
  obtain ⟨r, mem, first⟩ := mem_map.1 (ids ▸ mem_cons_self : 0 ∈ t.validRevisions.map Revision.id)
  refine ⟨t, ran, four, first ▸ revertToSnapshot_isSome ?_ ran mem⟩
  simp [Runs.Throughout, Allowed]

/-- The RIPEMD contract alone, and empty. -/
def emptyRipemd : Address → Option StateObject := fun a => if a = ripemd then some {} else none

/-- A root that tells whether it is there. -/
def ripemdRoot (trie : Address → Option StateObject) : Hash := if (trie ripemd).isSome then 1 else 0

/-- The RIPEMD contract is removed after a touch that was reverted. -/
theorem touch_not_reverted :
    (((Live.new emptyRipemd).snapshot.2.exec (.addBalance ripemd 0)).revertToSnapshot 0).map
        (fun u => u.intermediateRoot ripemdRoot true) = some 0 ∧
      (Live.new emptyRipemd).intermediateRoot ripemdRoot true = 1 := by
  decide +kernel

end Live

end JuChain.State
