import JuChain.State.Live

/-!
# What the methods do to the maps

All methods that change the state are made of a few edits (`edits_exec`), each with the journal
entry that takes it back (`Undo`).  Edits and undone entries keep the journal and the objects
fitting (`Sound`), and are seen in the `StateDB` behind the maps as they are done there.
-/

namespace JuChain.State

open List Function Option

variable {f : StateObject → StateObject}

attribute [ext] StateDB

/-- The account that an entry changes back in place, and how. -/
def Entry.restore : Entry → Option (Address × (StateObject → StateObject))
  | .suicide a prev prevBalance =>
    some (a, fun o => { o with suicided := prev, balance := prevBalance })
  | .balance a prev => some (a, fun o => { o with balance := prev })
  | .nonce a prev => some (a, fun o => { o with nonce := prev })
  | .storage a key prev => some (a, fun o => { o with storage := update o.storage key prev })
  | .code a prev => some (a, fun o => { o with code := prev })
  | _ => none

theorem Entry.dirtied_of_restore {e : Entry} {a : Address}
    (h : e.restore = some (a, f)) : e.dirtied = some a := by
  cases e <;> cases h <;> rfl

theorem StateDB.undo_of_restore {e : Entry} {a : Address}
    (h : e.restore = some (a, f)) (v : StateDB) : v.undo e = v.modify a f := by
  cases e <;> cases h <;> rfl

/-- The entry adds a log of the transaction. -/
def Change.isLog (h : Hash) : Change → Bool
  | .state (.addLog h') => h = h'
  | _ => false

namespace Live

open StateDB (ripemd)

variable {s t : Live} {a b : Address} {o data : StateObject}

/-! ## The view -/

/-- The state database that is seen; an account has a change for each journal entry. -/
def view (s : Live) : StateDB where
  trie := s.trie
  objects := s.object
  entries := s.entries.filterMap Change.entry
  dirties := fun a => (s.entries.filterMap Change.entry).countP fun e => e.dirtied = some a
  refund := s.refund
  thash := s.thash
  bhash := s.bhash
  txIndex := s.txIndex
  logs := s.logs
  logSize := s.logSize

/-- The live object at the address. -/
def Holds (s : Live) (a : Address) (o : StateObject) : Prop :=
  s.stateObjects a = some { toStateObject := o }

theorem object_of_some {x : Object} (h : s.stateObjects a = some x) :
    s.object a = if x.deleted then none else some x.toStateObject := by
  simp only [object, getStateObject, h]

theorem object_of_none (h : s.stateObjects a = none) : s.object a = (s.trie a).map newObject := by
  simp only [object, getStateObject, h]
  cases s.trie a <;> rfl

theorem Holds.object (h : s.Holds a o) : s.object a = some o := object_of_some h

theorem object_congr (hso : s.stateObjects a = t.stateObjects a) (htr : s.trie a = t.trie a) :
    s.object a = t.object a := by
  cases h : t.stateObjects a with
  | none => rw [object_of_none h, object_of_none (hso.trans h), htr]
  | some x => rw [object_of_some h, object_of_some (hso.trans h)]

theorem holds_setStateObject (s : Live) (a : Address) (o : StateObject) :
    (s.setStateObject a o).Holds a o :=
  update_self ..

theorem stateObjects_setStateObject (h : b ≠ a) :
    (s.setStateObject a o).stateObjects b = s.stateObjects b :=
  update_of_ne h ..

theorem object_setStateObject : (s.setStateObject a o).object = update s.object a (some o) := by
  funext b
  by_cases h : b = a
  · rw [h, update_self, (holds_setStateObject s a o).object]
  · rw [update_of_ne h]
    exact object_congr (stateObjects_setStateObject h) rfl

theorem view_setStateObject : (s.setStateObject a o).view = s.view.setObject a o := by
  simp only [view, StateDB.setObject, object_setStateObject]
  rfl

theorem view_append (e : Entry) : (s.append (.state e)).view = s.view.append e := by
  have objects : (s.append (.state e)).object = s.object := funext fun _ => object_congr rfl rfl
  simp only [view, StateDB.append, objects]
  congr 1
  funext a
  simp only [append, filterMap_cons, Change.entry, countP_cons, decide_eq_true_eq]
  cases e.dirtied with
  | none => simp
  | some b =>
    by_cases h : a = b
    · simp [h]
    · simp [h, Ne.symm h]

theorem view_load (missing : s.stateObjects a = none) (h : s.trie a = some data) :
    (s.setStateObject a (newObject data)).view = s.view := by
  have here : s.object a = some (newObject data) := by rw [object_of_none missing, h]; rfl
  rw [view_setStateObject, StateDB.setObject]
  show { s.view with objects := update s.object a (some (newObject data)) } = s.view
  rw [← here, update_eq_self]
  rfl

/-! ## Edits -/

/-- An entry that is written with the new object of an address. -/
inductive Fits (s : Live) (a : Address) : Entry → StateObject → Prop
  | create (missing : s.object a = none) : Fits s a (.createObject a) {}
  | reset {prev o : StateObject} (held : s.Holds a prev) : Fits s a (.resetObject a prev) o
  | change {e : Entry} {prev o : StateObject} {f : StateObject → StateObject} (held : s.Holds a prev)
    (he : e.restore = some (a, f)) (back : f o = prev) : Fits s a e o
  | touch {o : StateObject} (held : s.Holds a o) : Fits s a (.touch a) o

/-- The edits that the methods are made of.  Only `loud` ones mark the RIPEMD contract. -/
inductive Edit (loud : Prop) (s : Live) : Live → Prop
  | load {a : Address} {data : StateObject} (missing : s.stateObjects a = none)
    (h : s.trie a = some data) : Edit loud s (s.setStateObject a (newObject data))
  | write {a : Address} {e : Entry} {o : StateObject} (fits : Fits s a e o) :
    Edit loud s ((s.append (.state e)).setStateObject a o)
  | mark {o : StateObject} (h : loud) (held : s.Holds ripemd o) : Edit loud s (s.dirty ripemd)
  | refund (gas : UInt64) : Edit loud s (s.addRefund gas)
  | log (l : Log) : Edit loud s (s.addLog l)
  | preimage {hash : Hash} {preimage : Bytes} (missing : s.preimages hash = none) :
    Edit loud s { s.append (.addPreimage hash) with
      preimages := update s.preimages hash (some preimage) }

/-- Several edits. -/
abbrev Edits (loud : Prop) : Live → Live → Prop := Relation.ReflTransGen (Edit loud)

variable {loud : Prop}

theorem getStateObject_cases (loud : Prop) (s : Live) (a : Address) :
    (∃ t o, s.getStateObject a = (t, some o) ∧ Edits loud s t ∧ t.Holds a o) ∨
      s.getStateObject a = (s, none) ∧ s.object a = none := by
  cases hso : s.stateObjects a with
  | some x =>
    have got : s.getStateObject a = (s, if x.deleted then none else some x.toStateObject) := by
      simp only [getStateObject, hso]
    cases hdel : x.deleted with
    | true =>
      right
      rw [object_of_some hso, got, hdel]
      exact ⟨rfl, rfl⟩
    | false =>
      left
      refine ⟨s, x.toStateObject, ?_, .refl, ?_⟩
      · rw [got, hdel]
        rfl
      · rw [Holds, hso, ← hdel]
  | none =>
    cases htr : s.trie a with
    | none =>
      right
      rw [object_of_none hso, htr]
      refine ⟨?_, rfl⟩
      simp only [getStateObject, hso, htr]
    | some data =>
      left
      refine ⟨_, newObject data, ?_, .single (.load hso htr), holds_setStateObject ..⟩
      simp only [getStateObject, hso, htr]

/-- The effect can be undone. -/
inductive Effect.Sound (a : Address) (o : StateObject) : Effect → Prop
  | nothing : Effect.Sound a o .nothing
  | touch : Effect.Sound a o .touch
  | change {e : Entry} {o' : StateObject} {f : StateObject → StateObject}
    (he : e.restore = some (a, f)) (back : f o' = o) : Effect.Sound a o (.change e o')

theorem edits_touch (held : s.Holds a o) (h : a = ripemd → loud) : Edits loud s (s.touch a) := by
  have same : (s.append (.state (.touch a))).setStateObject a o = s.append (.state (.touch a)) := by
    have kept : update s.stateObjects a (some { toStateObject := o }) = s.stateObjects := by
      rw [← held, update_eq_self]
    simp only [setStateObject, append, kept]
  have first : Edits loud s (s.append (.state (.touch a))) := by
    rw [← same]
    exact .single (.write (.touch held))
  unfold touch
  split_ifs with hr
  · subst hr
    exact first.tail (.mark (h rfl) held)
  · exact first

theorem edits_record {eff : Effect} (held : s.Holds a o) (sound : Effect.Sound a o eff)
    (h : eff = .touch → a = ripemd → loud) : Edits loud s (s.record a eff) := by
  cases sound with
  | nothing => exact .refl
  | touch => exact edits_touch held (h rfl)
  | change he back => exact .single (.write (.change held he back))

theorem createObject_of_none (h : s.object a = none) :
    s.createObject a = ((s.append (.state (.createObject a))).setStateObject a {}, none) := by
  rcases getStateObject_cases True s a with ⟨t, o, got, -, held⟩ | ⟨got, -⟩
  · rw [object, got] at h
    cases h
  · rw [createObject, got]

theorem edits_getOrNew (loud : Prop) (s : Live) (a : Address) :
    Edits loud s (s.getOrNew a).1 ∧ (s.getOrNew a).1.Holds a (s.getOrNew a).2 := by
  unfold getOrNew
  rcases getStateObject_cases loud s a with ⟨t, o, got, edits, held⟩ | ⟨got, missing⟩
  · rw [got]
    exact ⟨edits, held⟩
  · rw [got]
    dsimp only
    rw [createObject_of_none missing]
    exact ⟨.single (.write (.create missing)), holds_setStateObject ..⟩

theorem edits_withObject (f : StateObject → Effect) (sound : ∀ o, Effect.Sound a o (f o))
    (h : ∀ o, f o = .touch → a = ripemd → loud) : Edits loud s (s.withObject a f) := by
  obtain ⟨edits, held⟩ := edits_getOrNew loud s a
  exact edits.trans (edits_record held (sound _) (h _))

theorem edits_createAccount (loud : Prop) (s : Live) (a : Address) :
    Edits loud s (s.createAccount a) := by
  unfold createAccount createObject
  rcases getStateObject_cases loud s a with ⟨t, o, got, edits, held⟩ | ⟨got, missing⟩
  · rw [got]
    dsimp only
    have reset : ((t.append (.state (.resetObject a o))).setStateObject a {}).setStateObject a
        { balance := o.balance } =
        (t.append (.state (.resetObject a o))).setStateObject a { balance := o.balance } := by
      simp only [setStateObject, update_idem]
    rw [reset]
    exact edits.tail (.write (.reset held))
  · rw [got]
    exact .single (.write (.create missing))

theorem edits_suicide (loud : Prop) (s : Live) (a : Address) : Edits loud s (s.suicide a) := by
  unfold suicide
  rcases getStateObject_cases loud s a with ⟨t, o, got, edits, held⟩ | ⟨got, missing⟩
  · rw [got]
    exact edits.tail (.write (.change held rfl rfl))
  · rw [got]

/-- The zero transfer that leaves the RIPEMD contract marked. -/
def Mutator.Touches (m : Mutator) : Prop := m = .addBalance ripemd 0

theorem edits_exec (s : Live) (m : Mutator) : Edits m.Touches s (s.exec m) := by
  cases m with
  | createAccount a => exact edits_createAccount _ s a
  | addBalance a amount =>
    refine edits_withObject (fun o => o.addBalance a amount) (fun o => ?_) fun o htouch ha => ?_
    · unfold StateObject.addBalance StateObject.setBalance
      split_ifs
      · exact .touch
      · exact .nothing
      · exact .change rfl rfl
    · unfold StateObject.addBalance StateObject.setBalance at htouch
      split_ifs at htouch with hz
      rw [hz, ha]
      rfl
  | subBalance a amount =>
    refine edits_withObject (fun o => o.subBalance a amount) (fun o => ?_) fun o htouch => ?_
    · unfold StateObject.subBalance StateObject.setBalance
      split_ifs
      · exact .nothing
      · exact .change rfl rfl
    · unfold StateObject.subBalance StateObject.setBalance at htouch
      split_ifs at htouch
  | setBalance a amount =>
    exact edits_withObject (fun o => o.setBalance a amount) (fun o => .change rfl rfl) nofun
  | setNonce a nonce =>
    exact edits_withObject (fun o => o.setNonce a nonce) (fun o => .change rfl rfl) nofun
  | setCode a code =>
    exact edits_withObject (fun o => o.setCode a code) (fun o => .change rfl rfl) nofun
  | setState a key value =>
    refine edits_withObject (fun o => o.setState a key value) (fun o => .change rfl ?_) nofun
    simp only [update_idem, update_eq_self]
  | suicide a => exact edits_suicide _ s a
  | addRefund gas => exact .single (.refund gas)
  | addLog l => exact .single (.log l)
  | addPreimage hash preimage =>
    show Edits _ s (s.addPreimage hash preimage)
    unfold addPreimage
    cases h : s.preimages hash with
    | some _ => exact .refl
    | none => exact .single (.preimage h)

/-! ## The invariant -/

/-- What is known of an address between calls. -/
structure Tidy (s : Live) (a : Address) : Prop where
  backed : ∀ x, s.stateObjects a = some x → x.deleted = true → s.trie a = none
  dead : ∀ x, s.stateObjects a = some x → x.deleted = true → x.suicided = true ∨ x.empty = true
  alive : ∀ x, s.stateObjects a = some x → s.dirties a ≠ 0 → x.deleted = false
  keyed : s.stateObjects a = none → s.isDirty a = true → s.trie a = none

theorem Holds.tidy (h : s.Holds a o) : s.Tidy a := by
  have live : ∀ x, s.stateObjects a = some x → x.deleted = false := by
    intro x hx
    rw [h] at hx
    cases hx
    rfl
  refine ⟨fun x hx hd => ?_, fun x hx hd => ?_, fun x hx _ => live x hx, fun hn => ?_⟩
  · exact absurd hd (by simp [live x hx])
  · exact absurd hd (by simp [live x hx])
  · rw [h] at hn
    cases hn

theorem Tidy.congr (h : s.Tidy a) (htr : t.trie a = s.trie a)
    (hso : t.stateObjects a = s.stateObjects a)
    (hdirty : t.stateObjectsDirty a = s.stateObjectsDirty a) (hd : t.dirties a ≠ 0 → s.dirties a ≠ 0) :
    t.Tidy a := by
  refine ⟨fun x hx => htr ▸ h.backed x (hso ▸ hx), fun x hx => h.dead x (hso ▸ hx),
    fun x hx hn => h.alive x (hso ▸ hx) (hd hn), fun hn hi => ?_⟩
  rw [htr]
  refine h.keyed (hso ▸ hn) ?_
  simp only [isDirty, Bool.or_eq_true, decide_eq_true_eq] at hi ⊢
  rw [← hdirty]
  exact hi.imp_right hd

theorem Tidy.trie_eq_none (h : s.Tidy a) (missing : s.object a = none) : s.trie a = none := by
  cases hso : s.stateObjects a with
  | none =>
    rw [object_of_none hso] at missing
    exact map_eq_none_iff.1 missing
  | some x =>
    rw [object_of_some hso] at missing
    refine h.backed x hso ?_
    by_contra hd
    rw [if_neg hd] at missing
    cases missing

/-- The journal fits the objects: no account is created under an entry that changes it. -/
structure Sound (s : Live) : Prop where
  tidy : ∀ a, s.Tidy a
  created : ∀ a, .state (.createObject a) ∈ s.entries → s.trie a = none
  held : ∀ e a, .state e ∈ s.entries → e.dirtied = some a → ∃ o, s.Holds a o
  ordered : s.entries.Pairwise fun newer older =>
    ∀ a e, newer = .state (.createObject a) → older = .state e → e.dirtied ≠ some a
  logged : ∀ h, s.entries.countP (Change.isLog h) ≤ (s.logs h).length
  counted : ∀ a, s.view.dirties a ≤ s.dirties a
  exact : ∀ a, a ≠ ripemd → s.dirties a = s.view.dirties a

theorem dirties_append (c : Change) (a : Address) :
    (s.append c).dirties a = s.dirties a + if c.entry.bind Entry.dirtied = some a then 1 else 0 := by
  simp only [append]
  cases c.entry.bind Entry.dirtied with
  | none => simp
  | some b =>
    by_cases h : a = b
    · simp [h]
    · simp [h, Ne.symm h]

theorem view_dirties_cons {c : Change} {rest : List Change} (h : s.entries = c :: rest) (a : Address) :
    s.view.dirties a = (rest.filterMap Change.entry).countP (fun e => e.dirtied = some a) +
      if c.entry.bind Entry.dirtied = some a then 1 else 0 := by
  simp only [view, h, filterMap_cons]
  cases c with
  | state e =>
    simp only [Change.entry, countP_cons, bind_some, decide_eq_true_eq]
    by_cases hd : e.dirtied = some a <;> simp [hd]
  | addPreimage hash => rfl

theorem dirties_drop (c : Change) (rest : List Change) (a : Address) :
    (s.drop c rest).dirties a = s.dirties a - if c.entry.bind Entry.dirtied = some a then 1 else 0 := by
  simp only [drop]
  cases c.entry.bind Entry.dirtied with
  | none => simp
  | some b =>
    by_cases h : a = b
    · simp [h]
    · simp [h, Ne.symm h]

variable {e : Entry}

theorem Fits.dirtied (h : Fits s a e o) : e.dirtied = some a ∨ e.dirtied = none := by
  cases h with
  | create => exact .inl rfl
  | reset => exact .inr rfl
  | change _ he => exact .inl (Entry.dirtied_of_restore he)
  | touch => exact .inl rfl

theorem Fits.isLog (h : Fits s a e o) (hash : Hash) : Change.isLog hash (.state e) = false := by
  cases h with
  | create | reset => rfl
  | change _ he => cases e <;> first | rfl | cases he
  | touch => rfl

theorem Holds.set (held : s.Holds b o) (a : Address) (o' : StateObject) :
    ∃ x, (s.setStateObject a o').Holds b x := by
  by_cases hb : b = a
  · rw [hb]
    exact ⟨o', holds_setStateObject ..⟩
  · exact ⟨o, (stateObjects_setStateObject hb).trans held⟩

theorem Sound.plain (h : s.Sound) {c : Change} (hc : c.entry.bind Entry.dirtied = none)
    (htr : t.trie = s.trie) (hso : t.stateObjects = s.stateObjects)
    (hdirty : t.stateObjectsDirty = s.stateObjectsDirty) (hd : t.dirties = s.dirties)
    (he : t.entries = c :: s.entries)
    (hlog : ∀ h, t.entries.countP (Change.isLog h) ≤ (t.logs h).length) : t.Sound := by
  have counts (a : Address) : t.view.dirties a = s.view.dirties a := by
    rw [view_dirties_cons he, hc]
    rfl
  have state : ∀ {e}, .state e ∈ t.entries → .state e ∈ s.entries ∨ c = .state e := by
    intro e hm
    rw [he] at hm
    exact (mem_cons.1 hm).symm.imp_right Eq.symm
  refine ⟨fun a => (h.tidy a).congr (congrFun htr a) (congrFun hso a) (congrFun hdirty a)
      (congrFun hd a ▸ id), fun a hm => ?_, fun e a hm hdir => ?_, ?_, hlog, fun a => ?_,
        fun a ha => ?_⟩
  · rw [htr]
    rcases state hm with hm | rfl
    · exact h.created a hm
    · cases hc
  · rcases state hm with hm | rfl
    · obtain ⟨o, ho⟩ := h.held e a hm hdir
      exact ⟨o, (congrFun hso a).trans ho⟩
    · change e.dirtied = none at hc
      rw [hc] at hdir
      cases hdir
  · rw [he]
    refine pairwise_cons.2 ⟨?_, h.ordered⟩
    rintro older - a e rfl
    cases hc
  · rw [counts, hd]
    exact h.counted a
  · rw [counts, hd]
    exact h.exact a ha

theorem Sound.load (h : s.Sound) : (s.setStateObject a (newObject data)).Sound := by
  refine ⟨fun b => ?_, h.created, fun e b hm hdir => ?_, h.ordered, h.logged, h.counted, h.exact⟩
  · by_cases hb : b = a
    · exact hb ▸ (holds_setStateObject s a _).tidy
    · exact (h.tidy b).congr rfl (stateObjects_setStateObject hb) rfl id
  · obtain ⟨o, ho⟩ := h.held e b hm hdir
    exact ho.set ..

theorem Sound.write (h : s.Sound) (fits : Fits s a e o) :
    ((s.append (.state e)).setStateObject a o).Sound := by
  have counts (b : Address) : ((s.append (.state e)).setStateObject a o).view.dirties b =
      s.view.dirties b + if e.dirtied = some b then 1 else 0 :=
    view_dirties_cons (s := (s.append (.state e)).setStateObject a o) rfl b
  have dirties (b : Address) : ((s.append (.state e)).setStateObject a o).dirties b =
      s.dirties b + if e.dirtied = some b then 1 else 0 := dirties_append _ b
  have here : ((s.append (.state e)).setStateObject a o).Holds a o := holds_setStateObject ..
  refine ⟨fun b => ?_, fun b hm => ?_, fun e' b hm hdir => ?_, ?_, fun hash => ?_, fun b => ?_,
    fun b hb => ?_⟩
  · by_cases hb : b = a
    · exact hb ▸ here.tidy
    · refine (h.tidy b).congr rfl (stateObjects_setStateObject hb) rfl fun hne => ?_
      rw [dirties, if_neg ?_] at hne
      · exact hne
      · rcases fits.dirtied with hdir | hdir <;> rw [hdir]
        · exact fun heq => hb (some.inj heq).symm
        · exact nofun
  · rcases mem_cons.1 hm with heq | hm
    · cases heq
      cases fits with
      | create missing => exact (h.tidy _).trie_eq_none missing
      | change _ he => cases he
    · exact h.created b hm
  · rcases mem_cons.1 hm with heq | hm
    · cases heq
      rcases fits.dirtied with hd | hd <;> rw [hd] at hdir <;> cases hdir
      exact ⟨o, here⟩
    · obtain ⟨o', ho⟩ := h.held e' b hm hdir
      exact Holds.set (s := s.append (.state e)) ho a o
  · refine pairwise_cons.2 ⟨?_, h.ordered⟩
    rintro older hm b e' heq rfl hdir
    cases heq
    obtain ⟨o', ho⟩ := h.held e' b hm hdir
    cases fits with
    | create missing =>
      rw [ho.object] at missing
      cases missing
    | change _ he => cases he
  · show (Change.state e :: s.entries).countP (Change.isLog hash) ≤ _
    rw [countP_cons, fits.isLog]
    exact h.logged hash
  · rw [counts, dirties]
    exact Nat.add_le_add_right (h.counted b) _
  · rw [counts, dirties, h.exact b hb]

theorem Sound.edit (h : s.Sound) (edit : Edit loud s t) : t.Sound := by
  cases edit with
  | load => exact h.load
  | write fits => exact h.write fits
  | mark _ held =>
    have same (b : Address) (hb : b ≠ ripemd) : (s.dirty ripemd).dirties b = s.dirties b :=
      update_of_ne hb ..
    refine ⟨fun b => ?_, h.created, h.held, h.ordered, h.logged, fun b => ?_, fun b hb => ?_⟩
    · by_cases hb : b = ripemd
      · exact hb ▸ Holds.tidy (s := s.dirty ripemd) held
      · exact (h.tidy b).congr rfl rfl rfl (same b hb ▸ id)
    · refine (h.counted b).trans ?_
      by_cases hb : b = ripemd
      · simp [dirty, hb]
      · simp [dirty, hb]
    · rw [same b hb]
      exact h.exact b hb
  | refund gas =>
    refine h.plain (c := .state (.refund s.refund)) rfl rfl rfl rfl rfl rfl fun hash => ?_
    exact h.logged hash
  | log l =>
    refine h.plain (c := .state (.addLog s.thash)) rfl rfl rfl rfl rfl rfl fun hash => ?_
    show (Change.state (.addLog s.thash) :: s.entries).countP (Change.isLog hash) ≤ _
    have logged := h.logged hash
    simp only [countP_cons, Change.isLog, decide_eq_true_eq, addLog]
    by_cases hh : hash = s.thash
    · subst hh
      simp only [if_true, update_self, length_append, length_singleton]
      omega
    · rw [if_neg hh, update_of_ne hh]
      exact logged
  | preimage missing =>
    refine h.plain rfl rfl rfl rfl rfl rfl fun hash => ?_
    exact h.logged hash

/-! ## Undoing -/

/-- What undoing an entry does. -/
inductive Undo (s : Live) : Change → Live → Prop
  | create (a : Address) : Undo s (.state (.createObject a))
    { s with
      stateObjects := update s.stateObjects a none
      stateObjectsDirty := update s.stateObjectsDirty a false }
  | reset (a : Address) (prev : StateObject) : Undo s (.state (.resetObject a prev))
    (s.setStateObject a prev)
  | change {e : Entry} {a : Address} {o : StateObject} {f : StateObject → StateObject}
    (he : e.restore = some (a, f)) (held : s.Holds a o) : Undo s (.state e) (s.setStateObject a (f o))
  | refund (prev : UInt64) : Undo s (.state (.refund prev)) { s with refund := prev }
  | log {h : Hash} (some : s.logs h ≠ []) : Undo s (.state (.addLog h))
    { s with logs := update s.logs h (s.logs h).dropLast, logSize := s.logSize - 1 }
  | touch (a : Address) : Undo s (.state (.touch a)) s
  | preimage (h : Hash) : Undo s (.addPreimage h) { s with preimages := update s.preimages h none }

theorem getStateObject_of_holds (h : s.Holds a o) : s.getStateObject a = (s, some o) := by
  unfold getStateObject
  rw [h]
  rfl

theorem modify_of_holds (h : s.Holds a o) (f : StateObject → StateObject) :
    s.modify a f = some (s.setStateObject a (f o)) := by
  rw [modify, getStateObject_of_holds h]

theorem undo_of_restore (he : e.restore = some (a, f)) (h : s.Holds a o) :
    s.undo (.state e) = some (s.setStateObject a (f o)) := by
  cases e <;> cases he
  · rw [undo, getStateObject_of_holds h]
  all_goals exact modify_of_holds h _

variable {c : Change} {rest : List Change}

theorem Sound.undo (h : s.Sound) (hs : s.entries = c :: rest) :
    ∃ t, s.undo c = some t ∧ Undo s c t := by
  have here : c ∈ s.entries := hs ▸ mem_cons_self
  have restored : ∀ {e a f}, c = .state e → e.restore = some (a, f) →
      ∃ t, s.undo c = some t ∧ Undo s c t := by
    rintro e a f rfl he
    obtain ⟨o, ho⟩ := h.held e a here (Entry.dirtied_of_restore he)
    exact ⟨_, undo_of_restore he ho, .change he ho⟩
  cases c with
  | addPreimage hash => exact ⟨_, rfl, .preimage hash⟩
  | state e =>
    cases e with
    | createObject a => exact ⟨_, rfl, .create a⟩
    | resetObject a prev => exact ⟨_, rfl, .reset a prev⟩
    | refund prev => exact ⟨_, rfl, .refund prev⟩
    | touch a => exact ⟨_, rfl, .touch a⟩
    | addLog hash =>
      have some : s.logs hash ≠ [] := by
        have logged := h.logged hash
        rw [hs, countP_cons] at logged
        intro hnil
        simp [hnil, Change.isLog] at logged
      exact ⟨_, if_neg some, .log some⟩
    | suicide a prev prevBalance => exact restored rfl rfl
    | balance a prev | nonce a prev | storage a key prev | code a prev => exact restored rfl rfl

section

variable (h : Undo s c t)
include h

theorem Undo.trie : t.trie = s.trie := by cases h <;> rfl

theorem Undo.dirties : t.dirties = s.dirties := by cases h <;> rfl

theorem Undo.entries : t.entries = s.entries := by cases h <;> rfl

theorem Undo.stateObjects (hb : c.entry.bind Entry.dirtied ≠ some b)
    (hreset : ∀ prev, c ≠ .state (.resetObject b prev)) : t.stateObjects b = s.stateObjects b := by
  cases h with
  | create a =>
    have ne : b ≠ a := fun heq => hb (congrArg some heq.symm)
    exact update_of_ne ne ..
  | reset a prev => exact stateObjects_setStateObject fun h => hreset prev (h ▸ rfl)
  | change he held =>
    exact stateObjects_setStateObject fun h => hb (h ▸ Entry.dirtied_of_restore he)
  | refund | log | touch | preimage => rfl

theorem Undo.stateObjectsDirty (hb : c ≠ .state (.createObject b)) :
    t.stateObjectsDirty b = s.stateObjectsDirty b := by
  cases h with
  | create a =>
    have ne : b ≠ a := by
      rintro rfl
      exact hb rfl
    exact update_of_ne ne ..
  | _ => rfl

theorem Undo.holds (held : s.Holds b o) (hb : c ≠ .state (.createObject b)) : ∃ o', t.Holds b o' := by
  cases h with
  | create a =>
    have ne : b ≠ a := by
      rintro rfl
      exact hb rfl
    exact ⟨o, (update_of_ne ne ..).trans held⟩
  | reset | change => exact held.set ..
  | refund | log | touch | preimage => exact ⟨o, held⟩

theorem Undo.logs (hash : Hash) :
    (t.logs hash).length = (s.logs hash).length - if c.isLog hash then 1 else 0 := by
  cases h with
  | log some =>
    rename_i h
    by_cases hh : hash = h
    · simp [Change.isLog, hh]
    · simp [Change.isLog, hh]
  | change he held => rename_i e a f o; cases e <;> first | rfl | cases he
  | _ => rfl

end

theorem Sound.drop (h : s.Sound) (hs : s.entries = c :: rest) (hu : Undo s c t) :
    (t.drop c rest).Sound := by
  have here : c ∈ s.entries := hs ▸ mem_cons_self
  have older : ∀ {x}, x ∈ rest → x ∈ s.entries := fun hx => hs ▸ mem_cons_of_mem c hx
  have ordered := h.ordered
  rw [hs] at ordered
  obtain ⟨first, ordered⟩ := pairwise_cons.1 ordered
  have dirties (b : Address) : (t.drop c rest).dirties b =
      s.dirties b - if c.entry.bind Entry.dirtied = some b then 1 else 0 := by
    rw [dirties_drop, hu.dirties]
  have counts (b : Address) : s.view.dirties b = (t.drop c rest).view.dirties b +
      if c.entry.bind Entry.dirtied = some b then 1 else 0 := view_dirties_cons hs b
  refine ⟨fun b => ?_, fun b hm => ?_, fun e b hm hdir => ?_, ordered, fun hash => ?_, fun b => ?_,
    fun b hb => ?_⟩
  · by_cases hcreate : c = .state (.createObject b)
    · -- the object is gone, and there was none in the trie
      subst hcreate
      have trie : (t.drop (.state (.createObject b)) rest).trie b = none :=
        (congrFun hu.trie b).trans (h.created b here)
      have gone : (t.drop (.state (.createObject b)) rest).stateObjects b = none := by
        cases hu with
        | create => exact update_self ..
        | change he => cases he
      exact ⟨fun _ _ _ => trie, fun x hx => (by rw [gone] at hx; cases hx),
        fun x hx => (by rw [gone] at hx; cases hx), fun _ _ => trie⟩
    · by_cases hheld : ∃ o, t.Holds b o
      · obtain ⟨o, ho⟩ := hheld
        exact Holds.tidy (s := t.drop c rest) ho
      · refine (h.tidy b).congr (congrFun hu.trie b) ?_ (hu.stateObjectsDirty hcreate) fun hne => ?_
        · refine hu.stateObjects (fun hdir => ?_) fun prev heq => ?_
          · cases c with
            | addPreimage => cases hdir
            | state e =>
              obtain ⟨o, ho⟩ := h.held e b here hdir
              exact hheld (hu.holds ho hcreate)
          · subst heq
            cases hu with
            | reset => exact hheld ⟨prev, holds_setStateObject ..⟩
            | change he => cases he
        · rw [dirties] at hne
          omega
  · exact (congrFun hu.trie b).trans (h.created b (older hm))
  · obtain ⟨o, ho⟩ := h.held e b (older hm) hdir
    refine hu.holds ho ?_
    rintro rfl
    exact first _ hm b e rfl rfl hdir
  · have logged := h.logged hash
    rw [hs, countP_cons] at logged
    show rest.countP _ ≤ (t.logs hash).length
    rw [hu.logs]
    omega
  · have := h.counted b
    have := counts b
    rw [dirties]
    omega
  · have := h.exact b hb
    have := counts b
    rw [dirties]
    omega

theorem view_of_eq (htr : t.trie = s.trie) (hso : t.stateObjects = s.stateObjects)
    (he : t.entries = s.entries) (hr : t.refund = s.refund) (hth : t.thash = s.thash)
    (hbh : t.bhash = s.bhash)
    (hti : t.txIndex = s.txIndex) (hl : t.logs = s.logs) (hls : t.logSize = s.logSize) :
    t.view = s.view := by
  have objects : t.object = s.object := funext fun a => object_congr (congrFun hso a) (congrFun htr a)
  simp only [view, objects, htr, he, hr, hth, hbh, hti, hl, hls]

theorem Undo.view (h : Undo s (.state e) t) (created : ∀ a, e = .createObject a → s.trie a = none) :
    t.view = s.view.undo e := by
  generalize hc : Change.state e = c at h
  cases h with
  | create a =>
    cases hc
    have objects : Live.object { s with
        stateObjects := update s.stateObjects a none
        stateObjectsDirty := update s.stateObjectsDirty a false } =
        update s.object a (s.trie a) := by
      funext b
      by_cases hb : b = a
      · rw [hb, update_self, object_of_none (update_self ..)]
        rw [created a rfl]
        rfl
      · rw [update_of_ne hb]
        exact object_congr (update_of_ne hb ..) rfl
    simp only [Live.view, StateDB.undo, objects]
  | reset a prev =>
    cases hc
    exact view_setStateObject
  | change he held =>
    cases hc
    rename_i a o f
    have here : s.view.objects a = some o := held.object
    rw [view_setStateObject, StateDB.undo_of_restore he, StateDB.modify, here]
    rfl
  | refund prev =>
    cases hc
    have objects : Live.object { s with refund := prev } = s.object :=
      funext fun _ => object_congr rfl rfl
    simp only [Live.view, StateDB.undo, objects]
  | log some =>
    rename_i hash
    cases hc
    have objects : Live.object { s with
        logs := update s.logs hash (s.logs hash).dropLast
        logSize := s.logSize - 1 } = s.object := funext fun _ => object_congr rfl rfl
    simp only [Live.view, StateDB.undo, objects]
  | touch a =>
    cases hc
    rfl
  | preimage => cases hc

theorem view_drop_state (h : s.Sound) (hs : s.entries = .state e :: rest) (hu : Undo s (.state e) t) :
    (t.drop (.state e) rest).view = s.view.pop := by
  have here : .state e ∈ s.entries := hs ▸ mem_cons_self
  have undone : t.view = s.view.undo e := hu.view fun a heq => h.created a (heq ▸ here)
  have entries : s.view.entries = e :: rest.filterMap Change.entry := by
    show s.entries.filterMap Change.entry = _
    rw [hs]
    rfl
  have objects : (t.drop (.state e) rest).object = t.object := funext fun _ => object_congr rfl rfl
  have counts (b : Address) : (t.drop (.state e) rest).view.dirties b =
      t.view.dirties b - if e.dirtied = some b then 1 else 0 := by
    have count : t.view.dirties b = (t.drop (.state e) rest).view.dirties b +
        if e.dirtied = some b then 1 else 0 := view_dirties_cons (hu.entries.trans hs) b
    omega
  unfold StateDB.pop
  rw [entries]
  dsimp only
  rw [← undone]
  apply StateDB.ext
  case objects => exact objects
  case dirties =>
    funext b
    rw [counts]
    cases e.dirtied with
    | none => simp
    | some a =>
      by_cases hb : b = a
      · simp [hb]
      · simp [hb, Ne.symm hb]
  all_goals rfl

theorem view_drop_preimage {hash : Hash} (hs : s.entries = .addPreimage hash :: rest)
    (hu : Undo s (.addPreimage hash) t) : (t.drop (.addPreimage hash) rest).view = s.view := by
  have entries : s.view.entries = rest.filterMap Change.entry := by
    show s.entries.filterMap Change.entry = _
    rw [hs]
    rfl
  cases hu
  apply StateDB.ext
  case objects => exact funext fun _ => object_congr rfl rfl
  case entries => exact entries.symm
  case dirties =>
    funext b
    exact congrArg (countP fun e => decide (e.dirtied = some b)) entries.symm
  all_goals rfl

/-! ## The view is a state database -/

theorem view_addRefund (gas : UInt64) : (s.addRefund gas).view = s.view.addRefund gas := by
  apply StateDB.ext
  case objects => exact funext fun _ => object_congr rfl rfl
  all_goals rfl

theorem view_addLog (l : Log) : (s.addLog l).view = s.view.addLog l := by
  apply StateDB.ext
  case objects => exact funext fun _ => object_congr rfl rfl
  all_goals rfl

theorem view_getStateObject (s : Live) (a : Address) : (s.getStateObject a).1.view = s.view := by
  unfold getStateObject
  cases hso : s.stateObjects a with
  | some x => rfl
  | none =>
    cases htr : s.trie a with
    | none => rfl
    | some data => exact view_load hso htr

theorem view_createObject (s : Live) (a : Address) :
    (s.createObject a).1.view = s.view.createObject a ∧ (s.createObject a).2 = s.object a := by
  have seen := view_getStateObject s a
  have here : s.view.objects a = (s.getStateObject a).2 := rfl
  unfold createObject StateDB.createObject object
  rw [here]
  cases hg : s.getStateObject a with
  | mk t prev =>
    rw [hg] at seen
    cases prev with
    | none | some prev => exact ⟨by rw [view_setStateObject, view_append, seen], rfl⟩

theorem view_getOrNew (s : Live) (a : Address) :
    (s.getOrNew a).1.view = (s.view.getOrNew a).1 ∧ (s.getOrNew a).2 = (s.view.getOrNew a).2 := by
  have seen := view_getStateObject s a
  have here : s.view.objects a = (s.getStateObject a).2 := rfl
  unfold getOrNew StateDB.getOrNew
  rw [here]
  cases hg : s.getStateObject a with
  | mk t found =>
    rw [hg] at seen
    cases found with
    | none => exact ⟨by rw [(view_createObject t a).1, seen], rfl⟩
    | some o => exact ⟨seen, rfl⟩

theorem view_withObject (f : StateObject → Effect) (g : StateDB → StateObject → StateDB)
    (hfg : ∀ (t : Live) (o : StateObject), (t.record a (f o)).view = g t.view o) :
    (s.withObject a f).view = s.view.withObject a g := by
  obtain ⟨hview, ho⟩ := view_getOrNew s a
  rw [withObject, StateDB.withObject, hfg, hview, ho]

theorem view_change (t : Live) (e : Entry) (o : StateObject) :
    (t.record a (.change e o)).view = (t.view.append e).setObject a o := by
  rw [record, view_setStateObject, view_append]

theorem view_touch (h : a ≠ ripemd) (t : Live) : (t.touch a).view = t.view.touch a := by
  rw [touch, StateDB.touch, if_neg h, if_neg h, view_append]

/-- The operation without the cache. -/
def Mutator.op : Mutator → Option StateDB.Op
  | .createAccount a => some (.createAccount a)
  | .addBalance a amount => some (.addBalance a amount)
  | .subBalance a amount => some (.subBalance a amount)
  | .setNonce a nonce => some (.setNonce a nonce)
  | .setCode a code => some (.setCode a code)
  | .setState a key value => some (.setState a key value)
  | .suicide a => some (.suicide a)
  | .addRefund gas => some (.addRefund gas)
  | .addLog l => some (.addLog l)
  | .setBalance .. | .addPreimage .. => none

theorem view_suicide (s : Live) (a : Address) : (s.suicide a).view = s.view.suicide a := by
  have seen := view_getStateObject s a
  have here : s.view.objects a = (s.getStateObject a).2 := rfl
  unfold suicide StateDB.suicide
  rw [here]
  cases hg : s.getStateObject a with
  | mk t found =>
    rw [hg] at seen
    cases found with
    | none => exact seen
    | some o =>
      rw [view_setStateObject, view_append, seen]

theorem view_createAccount (s : Live) (a : Address) :
    (s.createAccount a).view = s.view.createAccount a := by
  obtain ⟨hview, hprev⟩ := view_createObject s a
  have here : s.view.objects a = (s.createObject a).2 := hprev.symm
  unfold createAccount StateDB.createAccount
  rw [here]
  cases hc : s.createObject a with
  | mk t prev =>
    rw [hc] at hview
    cases prev with
    | none => exact hview
    | some prev =>
      rw [view_setStateObject, hview]

theorem view_exec {m : Mutator} {op : StateDB.Op} (hop : m.op = some op)
    (quiet : ∀ amount, op ≠ .addBalance ripemd amount) : (s.exec m).view = s.view.exec op := by
  cases m <;> cases hop
  case createAccount a => exact view_createAccount s a
  case addBalance a amount =>
    have ne : a ≠ ripemd := by
      rintro rfl
      exact quiet amount rfl
    refine view_withObject (·.addBalance a amount) (fun v o => v.objectAddBalance a o amount)
      fun t o => ?_
    unfold StateObject.addBalance StateDB.objectAddBalance
    split_ifs
    · exact view_touch ne t
    · rfl
    · exact view_change t _ _
  case subBalance a amount =>
    refine view_withObject (·.subBalance a amount) (fun v o => v.objectSubBalance a o amount)
      fun t o => ?_
    unfold StateObject.subBalance StateDB.objectSubBalance
    split_ifs
    · rfl
    · exact view_change t _ _
  case setNonce a nonce =>
    exact view_withObject (·.setNonce a nonce) (fun v o => v.objectSetNonce a o nonce) fun t o =>
      view_change t _ _
  case setCode a code =>
    exact view_withObject (·.setCode a code) (fun v o => v.objectSetCode a o code) fun t o =>
      view_change t _ _
  case setState a key value =>
    exact view_withObject (·.setState a key value) (fun v o => v.objectSetState a o key value)
      fun t o => view_change t _ _
  case suicide a => exact view_suicide s a
  case addRefund gas => exact view_addRefund gas
  case addLog l => exact view_addLog l

/-- Runs of the methods do to the view what the operations of `StateDB` do, but for the RIPEMD
contract. -/
theorem view_foldl {ms : List Mutator} {ops : List StateDB.Op}
    (same : Forall₂ (fun m op => m.op = some op) ms ops)
    (quiet : ∀ amount, .addBalance ripemd amount ∉ ops) :
    (ms.foldl exec s).view = s.view.execAll ops := by
  induction same generalizing s with
  | nil => rfl
  | cons hop _ ih =>
    rw [foldl_cons, ih fun n h => quiet n (mem_cons_of_mem _ h),
      view_exec hop fun n h => quiet n (h ▸ mem_cons_self)]
    rfl

theorem view_foldl_paid : ([.addBalance 5 7, .setNonce 5 1].foldl exec (Live.new fun _ => none)).view =
    (Live.new fun _ => none).view.execAll [.addBalance 5 7, .setNonce 5 1] :=
  view_foldl (.cons rfl (.cons rfl .nil)) (by simp [ripemd])

end Live

end JuChain.State
