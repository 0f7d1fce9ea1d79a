import JuChain.Engine.Genesis

/-!
# The genesis block and the order of its allocation

The visits of `ToBlock` leave the same state in every order but for the journal (`toBlock_eq`).  The
account that creates the contracts is the one visited last, so the order matters (`determined_iff`).
-/

namespace JuChain.Engine

open State Slices List Function Option Except Prod

variable {Config : Type} (s : StateDB) {t : StateDB} {c : Address}

/-! ## The journal of the allocation -/

/-- The state with older entries at the bottom of its journal. -/
def buried (es : List State.Entry) (s : StateDB) : StateDB := { s with entries := s.entries ++ es }

/-- The state without its journal. -/
def unjournaled : StateDB := { s with entries := [] }

theorem unseen_buried (es : List State.Entry) : StateDB.Unseen (buried es) where
  objects _ := rfl
  refund _ := rfl
  append _ _ := rfl
  setObject _ _ _ := rfl
  dirties _ := rfl
  setDirties _ _ := rfl
  setRefund _ _ := rfl
  addLog _ _ := rfl

namespace GenesisRules

variable (p : GenesisRules Config) (g : Genesis Config)

/-- `Finalise` drops the journal, so nothing of what was in it before is left. -/
theorem applyGenesisTransaction_buried (sender : Address) (es : List State.Entry) (s : StateDB)
    (header : Header) (tx : Transaction) (usedGas : UInt64) :
    p.applyGenesisTransaction sender (buried es s) header tx usedGas =
      p.applyGenesisTransaction sender s header tx usedGas := by
  unfold applyGenesisTransaction Rules.applyTransaction Transaction.asMessage
  dsimp only
  rw [Message.transitionDb_unseen (unseen_buried es)]
  cases Message.transitionDb _ p.rules.evm _ header.gasLimit s with
  | none => rfl
  | some r =>
    simp only [map_some]
    cases r.result <;> rfl

theorem install_endow (sender : Address) (order : List (Address × GenesisAccount)) (s : StateDB) :
    p.install g sender (endow order s) = p.install g sender (endow order (unjournaled s)) := by
  have endowed : endow order s = buried s.entries (endow order (unjournaled s)) := by
    unfold endow
    split_ifs
    · exact (unseen_buried s.entries).addBalance (unjournaled s) 0 _
    · rfl
  unfold install
  rw [endowed, applyGenesisTransaction_buried]

end GenesisRules

/-! ## What the allocation leaves in the state -/

/-- The state with the object `o` at `a`, changed `n` times. -/
def place (a : Address) (o : StateObject) (n : ℕ) : StateDB :=
  { s with
    objects := Function.update s.objects a (some o)
    dirties := Function.update s.dirties a n }

theorem place_place (a : Address) (o o' : StateObject) (n n' : ℕ) :
    place (place s a o n) a o' n' = place s a o' n' := by
  simp only [place, update_idem]

/-- Apart from the journal, `t` is `s` with the object `o` at `a`, changed `n` times. -/
def Places (t s : StateDB) (a : Address) (o : StateObject) (n : ℕ) : Prop :=
  unjournaled t = place s a o n

namespace Places

variable {t s : StateDB} {a : Address} {o : StateObject} {n : ℕ}

section

variable (h : Places t s a o n)
include h

theorem objects : t.objects = update s.objects a (some o) :=
  congrArg StateDB.objects h

theorem dirties : t.dirties = update s.dirties a n :=
  congrArg StateDB.dirties h

theorem change {e : State.Entry} (dirtied : e.dirtied = some a) (o' : StateObject) :
    Places ((t.append e).setObject a o') s a o' (n + 1) := by
  have changed : unjournaled ((t.append e).setObject a o') =
      place (unjournaled t) a o' (t.dirties a + 1) := by
    simp only [unjournaled, place, StateDB.setObject, StateDB.append, dirtied]
  have count : t.dirties a = n := by rw [h.dirties, update_self]
  unfold Places at h ⊢
  rw [changed, count, h, place_place]

theorem withObject (f : StateDB → StateObject → StateDB) : t.withObject a f = f t o := by
  unfold StateDB.withObject StateDB.getOrNew
  rw [h.objects, update_self]

theorem setCode (code : Bytes) : Places (t.setCode a code) s a { o with code := code } (n + 1) := by
  unfold StateDB.setCode
  rw [h.withObject]
  exact h.change rfl _

theorem setNonce (nonce : UInt64) :
    Places (t.setNonce a nonce) s a { o with nonce := nonce } (n + 1) := by
  unfold StateDB.setNonce
  rw [h.withObject]
  exact h.change rfl _

theorem setState (key value : Hash) : Places (t.setState a key value) s a
      { o with storage := update o.storage key value } (n + 1) := by
  unfold StateDB.setState
  rw [h.withObject]
  exact h.change rfl _

theorem setStates (kvs : List (Hash × Hash)) :
    Places (kvs.foldl (fun s kv => s.setState a kv.1 kv.2) t) s a
      { o with storage := kvs.foldl (fun st kv => update st kv.1 kv.2) o.storage }
      (n + kvs.length) := by
  induction kvs generalizing t o n with
  | nil => exact h
  | cons kv kvs ih =>
    have rest := ih (h.setState kv.1 kv.2)
    rwa [Nat.add_assoc, Nat.add_comm 1] at rest

end

theorem addBalance (absent : s.objects a = none) (clean : s.dirties a = 0) (balance : ℤ) :
    Places (s.addBalance a balance) (unjournaled s) a { balance := balance }
      (if balance = 0 ∧ a = StateDB.ripemd then 3 else 2) := by
  have created : Places (s.createObject a) (unjournaled s) a {} 1 := by
    unfold StateDB.createObject
    simp only [absent, Places, unjournaled, place, StateDB.setObject, StateDB.append,
      State.Entry.dirtied, clean, zero_add]
  have fresh : s.addBalance a balance = (s.createObject a).objectAddBalance a {} balance := by
    unfold StateDB.addBalance StateDB.withObject StateDB.getOrNew
    rw [absent]
  rw [fresh]
  unfold StateDB.objectAddBalance
  by_cases zero : balance = 0
  · subst zero
    have touched : Places ((s.createObject a).append (.touch a)) (unjournaled s) a {} 2 := by
      have again := created.change (e := .touch a) rfl {}
      have same : ((s.createObject a).append (.touch a)).setObject a {} =
          (s.createObject a).append (.touch a) := by
        have objects : ((s.createObject a).append (.touch a)).objects =
            update (unjournaled s).objects a (some {}) := created.objects
        unfold StateDB.setObject
        rw [objects, update_idem, ← objects]
      rwa [same] at again
    have empty : ({} : StateObject).empty = true := rfl
    rw [if_pos rfl, if_pos empty]
    unfold StateDB.touch
    by_cases special : a = StateDB.ripemd
    · rw [if_pos special, if_pos ⟨rfl, special⟩]
      have marked (t : StateDB) (d : Address → ℕ) :
          unjournaled { t with dirties := d } = { unjournaled t with dirties := d } := rfl
      have dirties := touched.dirties
      unfold Places at touched ⊢
      rw [marked, dirties, touched, update_idem, update_self]
      rfl
    · rw [if_neg special, if_neg fun h => special h.2]
      exact touched
  · rw [if_neg zero, if_neg fun h => zero h.1]
    have set := created.change (e := .balance a 0) rfl { balance := 0 + balance }
    unfold StateDB.setBalance
    simpa only [zero_add] using set

end Places

namespace GenesisAccount

/-- The object that the account becomes. -/
def object (account : GenesisAccount) : StateObject where
  nonce := account.nonce
  balance := account.balance.getD 0
  code := account.code
  storage := account.storage.foldl (fun st kv => Function.update st kv.1 kv.2) fun _ => 0

/-- How often the loop of `ToBlock` changes the account. -/
def changes (account : GenesisAccount) (a : Address) : ℕ :=
  (if account.balance.getD 0 = 0 ∧ a = StateDB.ripemd then 3 else 2) + 1 + 1 + account.storage.length

theorem places_fill (account : GenesisAccount) {a : Address} {s : StateDB}
    (absent : s.objects a = none) (clean : s.dirties a = 0) :
    Places (account.fill a (account.balance.getD 0) s) (unjournaled s) a account.object
      (account.changes a) :=
  (((Places.addBalance absent clean _).setCode account.code).setNonce account.nonce).setStates
    account.storage

/-- The accounts are the same, with the storage listed in another order. -/
structure Same (x y : GenesisAccount) : Prop where
  balance : x.balance = y.balance
  code : x.code = y.code
  nonce : x.nonce = y.nonce
  storage : x.storage.Perm y.storage

theorem Same.refl (x : GenesisAccount) : x.Same x := ⟨rfl, rfl, rfl, .refl _⟩

theorem Same.object {x y : GenesisAccount} (h : x.Same y) : x.object = y.object := by
  have storage : x.object.storage = y.object.storage := by
    refine h.storage.foldl_eq' (fun kv hkv kv' hkv' st => ?_) _
    by_cases same : kv = kv'
    · rw [same]
    · exact update_comm (fun h => same (inj_on_of_nodup_map x.nodup hkv hkv' h)) ..
  have fields (account : GenesisAccount) : account.object =
      { nonce := account.nonce, balance := account.balance.getD 0, code := account.code,
        storage := account.object.storage } := rfl
  rw [fields x, fields y, storage, h.nonce, h.balance, h.code]

theorem Same.changes {x y : GenesisAccount} (h : x.Same y) (a : Address) :
    x.changes a = y.changes a := by
  unfold GenesisAccount.changes
  rw [h.balance, h.storage.length_eq]

end GenesisAccount

/-- One order in which the maps of the allocation are walked. -/
def Walks (alloc order : List (Address × GenesisAccount)) : Prop :=
  ∃ mid, alloc.Perm mid ∧ List.Forall₂ (fun x y => x.1 = y.1 ∧ x.2.Same y.2) mid order

namespace Walks

variable {alloc order : List (Address × GenesisAccount)}

theorem of_perm (perm : alloc.Perm order) : Walks alloc order :=
  ⟨order, perm, forall₂_same.2 fun x _ => ⟨rfl, .refl x.2⟩⟩

theorem map {β : Type} {f : Address × GenesisAccount → β} (h : Walks alloc order)
    (hf : ∀ x y, x.1 = y.1 → x.2.Same y.2 → f x = f y) : (alloc.map f).Perm (order.map f) := by
  obtain ⟨mid, perm, same⟩ := h
  have values : mid.map f = order.map f := by
    clear perm
    induction same with
    | nil => rfl
    | cons h _ ih => rw [map_cons, map_cons, hf _ _ h.1 h.2, ih]
  exact values ▸ perm.map f

theorem keys (h : Walks alloc order) : (alloc.map fst).Perm (order.map fst) :=
  h.map fun _ _ key _ => key

theorem isEmpty (h : Walks alloc order) : order.isEmpty = alloc.isEmpty := by
  have := h.keys.length_eq
  rw [length_map, length_map] at this
  rw [Bool.eq_iff_iff, isEmpty_iff_length_eq_zero, isEmpty_iff_length_eq_zero, this]

theorem balances (h : Walks alloc order) :
    (alloc.map fun x => x.2.balance).Perm (order.map fun x => x.2.balance) :=
  h.map fun _ _ _ same => same.balance

end Walks

/-- The account is placed in the state. -/
def put (x : Address × GenesisAccount) : StateDB := place s x.1 x.2.object (x.2.changes x.1)

variable {alloc order rest : List (Address × GenesisAccount)} {s : StateDB}

theorem foldl_put_walks (nodup : (alloc.map fst).Nodup) (h : Walks alloc order) (s : StateDB) :
    order.foldl put s = alloc.foldl put s := by
  obtain ⟨mid, perm, same⟩ := h
  have reordered : alloc.foldl put s = mid.foldl put s := by
    refine perm.foldl_eq' (fun x hx y hy s => ?_) s
    by_cases eq : x = y
    · rw [eq]
    · have ne : x.1 ≠ y.1 := fun h => eq (inj_on_of_nodup_map nodup hx hy h)
      simp only [put, place, update_comm ne]
  rw [reordered]
  clear reordered perm
  induction same generalizing s with
  | nil => rfl
  | @cons x y _ _ h _ ih =>
    rw [foldl_cons, foldl_cons, ih]
    unfold put
    rw [h.1, h.2.object, h.2.changes]

/-- The accounts of the allocation are absent from the state and unchanged. -/
def Fresh (order : List (Address × GenesisAccount)) (s : StateDB) : Prop :=
  ∀ a ∈ order.map fst, s.objects a = none ∧ s.dirties a = 0

theorem fresh_rest {x : Address × GenesisAccount} (nodup : ((x :: rest).map fst).Nodup)
    (fresh : Fresh (x :: rest) s)
    (placed : Places t (unjournaled s) x.1 x.2.object (x.2.changes x.1)) : Fresh rest t := by
  intro a ha
  have ne : a ≠ x.1 := fun h => (nodup_cons.1 nodup).1 (h ▸ ha)
  rw [placed.objects, placed.dirties, update_of_ne ne, update_of_ne ne]
  exact fresh a (mem_cons_of_mem _ ha)

theorem allocate_eq_ok (nodup : (order.map fst).Nodup) (fresh : Fresh order s)
    (funded : none ∉ order.map fun x => x.2.balance) :
    ∃ t, allocate order s = .ok t ∧ unjournaled t = order.foldl put (unjournaled s) := by
  induction order generalizing s with
  | nil => exact ⟨s, rfl, rfl⟩
  | cons x rest ih =>
    obtain ⟨a, account⟩ := x
    obtain ⟨absent, clean⟩ := fresh a mem_cons_self
    have placed := account.places_fill absent clean
    have filled : unjournaled (account.fill a (account.balance.getD 0) s) =
        put (unjournaled s) (a, account) := placed
    rw [map_cons, mem_cons, not_or] at funded
    obtain ⟨t, ran, left⟩ := ih (nodup_cons.1 nodup).2 (fresh_rest nodup fresh placed) funded.2
    refine ⟨t, ?_, by rw [left, filled, foldl_cons]⟩
    unfold allocate
    cases balance : account.balance with
    | none => exact absurd balance.symm funded.1
    | some b =>
      rw [balance] at ran
      exact ran

theorem allocate_eq_panic
    (unfunded : none ∈ order.map fun x => x.2.balance) : allocate order s = .error .panic := by
  induction order generalizing s with
  | nil => exact nomatch unfunded
  | cons x rest ih =>
    unfold allocate
    cases balance : x.2.balance with
    | none => rfl
    | some b =>
      rw [map_cons, mem_cons, balance] at unfunded
      exact ih (unfunded.resolve_left nofun)

theorem allocate_walks
    (nodup : (alloc.map fst).Nodup) (walk : Walks alloc order) (fresh : Fresh alloc s) :
    (allocate order s).map unjournaled = (allocate alloc s).map unjournaled := by
  by_cases unfunded : none ∈ alloc.map fun x => x.2.balance
  · rw [allocate_eq_panic unfunded, allocate_eq_panic (walk.balances.mem_iff.1 unfunded)]
  · have fresh' : Fresh order s := fun a ha => fresh a (walk.keys.mem_iff.2 ha)
    obtain ⟨t, ran, left⟩ := allocate_eq_ok nodup fresh unfunded
    obtain ⟨t', ran', left'⟩ := allocate_eq_ok (walk.keys.nodup nodup) fresh'
      fun h => unfunded (walk.balances.mem_iff.2 h)
    rw [ran, ran', Except.map, Except.map, left, left', foldl_put_walks nodup walk]

theorem bind_congr_of_map {ε α β : Type} {x y : Except ε α} {g : α → α} {f : α → Except ε β}
    (h : x.map g = y.map g) (hf : ∀ a, f a = f (g a)) : x >>= f = y >>= f := by
  have through (x : Except ε α) : x >>= f = x.map g >>= f := by
    cases x with
    | error e => rfl
    | ok a => exact hf a
  rw [through x, through y, h]

namespace GenesisRules

variable (p : GenesisRules Config) (g : Genesis Config)

/-- `ToBlock` with the contracts created by `sender`. -/
def toBlockBy (sender : Address) : Except (Fault Unit) GenesisBlock := do
  let s ← allocate g.alloc (StateDB.new fun _ => none)
  let (s, receipt, usedGas) ← p.install g sender (endow g.alloc s)
  return p.assemble g s receipt usedGas

theorem toBlock_eq (walk : Walks g.alloc order) :
    p.toBlock g order = p.toBlockBy g (creator order) := by
  have allocated := allocate_walks (s := StateDB.new fun _ => none) g.nodup walk
    fun _ _ => ⟨rfl, rfl⟩
  have same : endow order = endow g.alloc := by
    unfold endow
    rw [walk.isEmpty]
  unfold toBlock toBlockBy
  rw [same]
  exact bind_congr_of_map allocated fun s => by rw [install_endow]

end GenesisRules

/-! ## The creator decides the block -/

namespace GenesisRules

variable (p : GenesisRules Config) (g : Genesis Config)

/-- The account `c` passes the checks of the two creations, which leave the state `t`. -/
def Installs (c : Address) (t : StateDB) : Prop :=
  ∃ s receipt usedGas, allocate g.alloc (StateDB.new fun _ => none) = .ok s ∧
    p.install g c (endow g.alloc s) = .ok (t, receipt, usedGas)

/-- A creation counts as one transaction of its sender, and constructors send nothing in the name of
others. -/
def CountsNonces : Prop :=
  ∀ s c t, allocate g.alloc (StateDB.new fun _ => none) = .ok s → c ∈ g.alloc.map fst →
    p.Installs g c t → ∀ a ∈ g.alloc.map fst,
      nonceAt t.trie a = s.getNonce a + if a = c then 2 else 0

/-- The states that the installations leave have different roots. -/
def DistinctRoots : Prop :=
  Set.InjOn p.rules.codec.trieRoot
    {trie | ∃ c t, c ∈ g.alloc.map fst ∧ p.Installs g c t ∧ trie = t.trie}

variable {p g}

theorem applyGenesisTransaction_cases (p : GenesisRules Config) (sender : Address) (s : StateDB)
    (header : Header) (tx : Transaction) (used : UInt64) :
    (∃ (u : StateDB) (receipt : Receipt) (used' : UInt64),
      p.applyGenesisTransaction sender s header tx used = .ok (u.finalise, receipt, used')) ∨
      p.applyGenesisTransaction sender s header tx used = .error (.err ()) := by
  unfold applyGenesisTransaction Rules.applyTransaction Transaction.asMessage
  dsimp only
  cases run : Message.transitionDb _ p.rules.evm _ header.gasLimit s with
  | none =>
    -- The pool has room for the gas that comes back.
    have isSome := isNone_iff_eq_none.2 run
    simp only [isNone_eq_false_iff.2 Message.transitionDb_isSome, Bool.false_eq_true] at isSome
  | some r =>
    simp only [map_some]
    cases r.result with
    | error e => exact .inr rfl
    | ok gasFailed => exact .inl ⟨r.state, _, _, rfl⟩

theorem install_cases (p : GenesisRules Config) (g : Genesis Config) (sender : Address) (s : StateDB) :
    (∃ (u : StateDB) (receipt : Receipt) (used : UInt64),
      p.install g sender s = .ok (u.finalise, receipt, used)) ∨
      p.install g sender s = .error (.err ()) := by
  unfold install
  obtain ⟨u, receipt, used, first⟩ | refused :=
    p.applyGenesisTransaction_cases sender s g.head (p.dapptx g) g.gasUsed
  · rw [first, ok_bind]
    dsimp only
    obtain ⟨v, _, used', second⟩ | refused :=
      p.applyGenesisTransaction_cases sender u.finalise g.head (p.dapptx1 g) used
    · rw [second]
      exact .inl ⟨v, receipt, used', rfl⟩
    · rw [refused]
      exact .inr rfl
  · rw [refused]
    exact .inr rfl

theorem finaliseKeeping_trie (clean : ∀ a, t.dirties a = 0) : (finaliseKeeping t).trie = t.trie := by
  simp [finaliseKeeping, clean]

variable {c c' : Address}

theorem Installs.toBlockBy {t : StateDB} (h : p.Installs g c t) :
    ∃ b, p.toBlockBy g c = .ok b ∧ b.header.root = p.rules.codec.trieRoot t.trie := by
  obtain ⟨s, receipt, used, allocated, installed⟩ := h
  obtain ⟨u, receipt', used', ran⟩ | refused := p.install_cases g c (endow g.alloc s)
  · rw [ran] at installed
    obtain ⟨rfl, -⟩ := Prod.mk.inj (Except.ok.inj installed)
    refine ⟨p.assemble g u.finalise receipt' used', ?_, ?_⟩
    · unfold GenesisRules.toBlockBy
      rw [allocated, ok_bind, ran]
      rfl
    · show p.rules.codec.trieRoot (finaliseKeeping u.finalise).trie = _
      rw [finaliseKeeping_trie fun _ => rfl]
  · rw [refused] at installed
    exact nomatch installed

theorem exists_installs {b : GenesisBlock} (made : p.toBlockBy g c = .ok b) :
    ∃ t, p.Installs g c t := by
  obtain ⟨s, allocated, rest⟩ := bind_eq_ok.1 made
  obtain ⟨⟨t, receipt, used⟩, installed, -⟩ := bind_eq_ok.1 rest
  exact ⟨t, s, receipt, used, allocated, installed⟩

theorem toBlockBy_of_not_installs (h : ∀ t, ¬p.Installs g c t) (h' : ∀ t, ¬p.Installs g c' t) :
    p.toBlockBy g c = p.toBlockBy g c' := by
  unfold toBlockBy
  cases allocated : allocate g.alloc (StateDB.new fun _ => none) with
  | error e => rw [error_bind, error_bind]
  | ok s =>
    have refused {c : Address} (h : ∀ t, ¬p.Installs g c t) :
        p.install g c (endow g.alloc s) = .error (.err ()) := by
      obtain ⟨u, receipt, used, ran⟩ | refused := p.install_cases g c (endow g.alloc s)
      · exact absurd ⟨s, receipt, used, allocated, ran⟩ (h _)
      · exact refused
    rw [ok_bind, ok_bind, refused h, refused h']

theorem toBlockBy_ne {t t' : StateDB} (roots : p.DistinctRoots g) (nonces : p.CountsNonces g)
    (hc : c ∈ g.alloc.map fst) (hc' : c' ∈ g.alloc.map fst) (ne : c ≠ c') (h : p.Installs g c t)
    (h' : p.Installs g c' t') : p.toBlockBy g c ≠ p.toBlockBy g c' := by
  intro same
  obtain ⟨b, made, root⟩ := h.toBlockBy
  obtain ⟨b', made', root'⟩ := h'.toBlockBy
  rw [made, made'] at same
  obtain rfl := ok.inj same
  have tries : t.trie = t'.trie := roots ⟨c, t, hc, h, rfl⟩ ⟨c', t', hc', h', rfl⟩
    (root.symm.trans root')
  obtain ⟨s, _, _, allocated, _⟩ := id h
  have counted := nonces s c t allocated hc h c hc
  have uncounted := nonces s c' t' allocated hc' h' c hc
  rw [if_pos rfl, tries, uncounted, if_neg ne] at counted
  exact absurd (add_left_cancel counted) (by decide)

end GenesisRules

/-! ## Who is visited last -/

theorem creator_eq (order : List (Address × GenesisAccount)) :
    creator order = (order.map fst).getLast?.getD 0 := by
  unfold creator
  rw [getLast?_map]

theorem creator_mem (ne : order ≠ []) : creator order ∈ order.map fst := by
  have ne' : order.map fst ≠ [] := fun h => ne (map_eq_nil_iff.1 h)
  rw [creator_eq, getLast?_eq_getLast_of_ne_nil ne']
  exact getLast_mem ne'

theorem creator_of_length_le_one
    (short : alloc.length ≤ 1) (walk : Walks alloc order) : creator order = creator alloc := by
  rw [creator_eq, creator_eq]
  have keys := walk.keys
  rcases alloc with - | ⟨x, - | ⟨y, rest⟩⟩
  · rw [nil_perm.1 keys, map_nil]
  · rw [← singleton_perm.1 keys, map_singleton]
  · exact absurd short (by simp)

theorem exists_walk (hc : c ∈ alloc.map fst) : ∃ order, Walks alloc order ∧ creator order = c := by
  obtain ⟨x, hx, rfl⟩ := mem_map.1 hc
  obtain ⟨before, after, rfl⟩ := append_of_mem hx
  refine ⟨before ++ after ++ [x], .of_perm ?_, ?_⟩
  · rw [append_assoc]
    exact perm_middle.trans (perm_append_singleton x _).symm |>.trans (by simp)
  · simp [creator]

namespace GenesisRules

variable {p : GenesisRules Config} {g : Genesis Config}

theorem configure_ne_mismatch (newcfg : Config) (hash stored new : Hash) (db : GenesisDb Config) :
    p.configure newcfg hash db ≠ .error (.err (.mismatch stored new)) := by
  unfold configure
  cases db.config hash with
  | none => exact nofun
  | some storedcfg =>
    dsimp only
    cases p.checkCompatible storedcfg newcfg db.headNumber with
    | none => exact nofun
    | some rewindTo =>
      dsimp only
      split_ifs <;> exact nofun

theorem setupGenesisBlock_ne_mismatch {order' : List (Address × GenesisAccount)}
    {db : GenesisDb Config} {r : Config × Hash × GenesisDb Config} {stored new : Hash}
    (same : p.toBlock g order' = p.toBlock g order) (empty : db.getCanonicalHash 0 = 0)
    (ran : p.setupGenesisBlock (some g) order db = .ok r) :
    p.setupGenesisBlock (some g) order' r.2.2 ≠ .error (.err (.mismatch stored new)) := by
  unfold setupGenesisBlock at ran
  split_ifs at ran with noConfig
  cases committed : p.commit g order db with
  | error e =>
    simp only [getD_some, committed] at ran
    cases ran
  | ok written =>
    obtain ⟨b, db'⟩ := written
    simp only [getD_some, committed] at ran
    obtain rfl := ok.inj ran
    obtain ⟨made, -, td, -, rfl⟩ := commit_eq_ok committed
    have canonical : (p.write g db td b).getCanonicalHash 0 = p.headerHash b.header := by
      simp [GenesisDb.getCanonicalHash, write]
    unfold setupGenesisBlock
    dsimp only
    rw [same, made, canonical]
    split_ifs with zero
    · cases p.commit ((some g).getD p.defaultGenesis) order' (p.write g db td b) <;> simp
    · simp only [ne_eq, not_true_eq_false, if_false]
      exact configure_ne_mismatch _ _ _ _ _

/-- Every order gives the same block, and `SetupGenesisBlock` sees no mismatch after itself. -/
def Determined (p : GenesisRules Config) (g : Genesis Config) : Prop :=
  ∀ order order', Walks g.alloc order → Walks g.alloc order' →
    p.toBlock g order = p.toBlock g order' ∧
    ∀ db r stored new, db.getCanonicalHash 0 = 0 →
      p.setupGenesisBlock (some g) order db = .ok r →
      p.setupGenesisBlock (some g) order' r.2.2 ≠ .error (.err (.mismatch stored new))

/-- The order matters exactly if one of several accounts installs. -/
theorem determined_iff (p : GenesisRules Config) (g : Genesis Config) (roots : p.DistinctRoots g)
    (nonces : p.CountsNonces g) :
    p.Determined g ↔ g.alloc.length ≤ 1 ∨ ∀ c ∈ g.alloc.map fst, ∀ t, ¬p.Installs g c t := by
  constructor
  · intro same
    by_contra neither
    rw [not_or, not_le] at neither
    obtain ⟨two, able⟩ := neither
    push Not at able
    obtain ⟨c, hc, t, installs⟩ := able
    -- Another account is visited last in another order.
    obtain ⟨c', hc', ne⟩ : ∃ c' ∈ g.alloc.map fst, c ≠ c' := by
      by_contra all
      push Not at all
      have subset : g.alloc.map fst ⊆ [c] := fun x hx => mem_singleton.2 (all x hx).symm
      have short := (g.nodup.subperm subset).length_le
      rw [length_map, length_singleton] at short
      omega
    obtain ⟨order, walk, last⟩ := exists_walk hc
    obtain ⟨order', walk', last'⟩ := exists_walk hc'
    have blocks := (same order order' walk walk').1
    rw [p.toBlock_eq g walk, p.toBlock_eq g walk', last, last'] at blocks
    obtain ⟨b, made, -⟩ := installs.toBlockBy
    obtain ⟨t', installs'⟩ := exists_installs (blocks.symm.trans made)
    exact toBlockBy_ne roots nonces hc hc' ne installs installs' blocks
  · intro condition order order' walk walk'
    have same : p.toBlock g order = p.toBlock g order' := by
      rw [p.toBlock_eq g walk, p.toBlock_eq g walk']
      by_cases short : g.alloc.length ≤ 1
      · rw [creator_of_length_le_one short walk, creator_of_length_le_one short walk']
      · have unable := condition.resolve_left short
        have visited {order : List (Address × GenesisAccount)} (walk : Walks g.alloc order) :
            creator order ∈ g.alloc.map fst := by
          refine walk.keys.mem_iff.2 (creator_mem fun empty => short ?_)
          have length := walk.keys.length_eq
          rw [empty, length_map, map_nil, length_nil] at length
          omega
        exact toBlockBy_of_not_installs (unable _ (visited walk)) (unable _ (visited walk'))
    exact ⟨same, fun db r stored new empty ran =>
      setupGenesisBlock_ne_mismatch same.symm empty ran⟩

/-- The node that wrote the first block refuses the one of the other order. -/
theorem pair_visited_differently :
    (countingRules.toBlock pairGenesis [(1, wealthy), (2, wealthy)]).map (·.header.root) = .ok 0 ∧
    (countingRules.toBlock pairGenesis [(2, wealthy), (1, wealthy)]).map (·.header.root) = .ok 2 ∧
    ((countingRules.setupGenesisBlock (some pairGenesis) [(1, wealthy), (2, wealthy)] emptyDb).bind
      fun r =>
        (countingRules.setupGenesisBlock (some pairGenesis) [(2, wealthy), (1, wealthy)] r.2.2).map
        (·.2.1)) = .error (.err (.mismatch 1 3)) := by
  refine ⟨?_, ?_, ?_⟩ <;> decide +kernel

/-- The nonces of both accounts, installed from one of them. -/
def pairNonces (c : Address) : Except (Fault Unit) (UInt64 × UInt64) := do
  let s ← allocate pairGenesis.alloc (StateDB.new fun _ => none)
  (countingRules.install pairGenesis c (endow pairGenesis.alloc s)).map fun r =>
    (nonceAt r.1.trie 1, nonceAt r.1.trie 2)

theorem pairNonces_of_installs (h : countingRules.Installs pairGenesis c t) :
    pairNonces c = .ok (nonceAt t.trie 1, nonceAt t.trie 2) := by
  obtain ⟨s, receipt, used, allocated, installed⟩ := h
  unfold pairNonces
  rw [allocated, ok_bind, installed]
  rfl

theorem pair_members (hc : c ∈ pairGenesis.alloc.map fst) : c = 1 ∨ c = 2 := by
  simpa [pairGenesis] using hc

theorem pairNonces_one : pairNonces 1 = .ok (2, 0) := by decide +kernel

theorem pairNonces_two : pairNonces 2 = .ok (0, 2) := by decide +kernel

theorem pair_nonces (hc : c ∈ pairGenesis.alloc.map fst) (h : countingRules.Installs pairGenesis c t) :
    nonceAt t.trie 1 = (if 1 = c then 2 else 0) ∧ nonceAt t.trie 2 = if 2 = c then 2 else 0 := by
  have nonces := pairNonces_of_installs h
  rcases pair_members hc with rfl | rfl
  · rw [pairNonces_one] at nonces
    exact (Prod.mk.inj (Except.ok.inj nonces)).imp Eq.symm Eq.symm
  · rw [pairNonces_two] at nonces
    exact (Prod.mk.inj (Except.ok.inj nonces)).imp Eq.symm Eq.symm

theorem pair_countsNonces : countingRules.CountsNonces pairGenesis := by
  intro s c t allocated hc installs a ha
  have zero : s.getNonce a = 0 := by
    obtain rfl := ok.inj allocated
    rcases pair_members ha with rfl | rfl <;> rfl
  obtain ⟨one, two⟩ := pair_nonces hc installs
  rw [zero, zero_add]
  rcases pair_members ha with rfl | rfl
  · exact one
  · exact two

theorem pair_distinctRoots : countingRules.DistinctRoots pairGenesis := by
  rintro _ ⟨c, t, hc, installs, rfl⟩ _ ⟨c', t', hc', installs', rfl⟩ roots
  have one : (nonceAt t.trie 1).toBitVec.setWidth 256 = (nonceAt t'.trie 1).toBitVec.setWidth 256 :=
    roots
  rw [(pair_nonces hc installs).1, (pair_nonces hc' installs').1] at one
  have creators : c = c' := by
    rcases pair_members hc with rfl | rfl <;> rcases pair_members hc' with rfl | rfl
    · rfl
    · exact absurd one (by decide)
    · exact absurd one (by decide)
    · rfl
  obtain ⟨s, _, _, allocated, installed⟩ := installs
  obtain ⟨s', _, _, allocated', installed'⟩ := installs'
  obtain rfl := ok.inj (allocated.symm.trans allocated')
  rw [creators] at installed
  rw [(Prod.mk.inj (Except.ok.inj (installed.symm.trans installed'))).1]

/-- Two accounts that can both create the contracts leave the block open. -/
theorem pair_not_determined : countingRules.DistinctRoots pairGenesis ∧
    countingRules.CountsNonces pairGenesis ∧ ¬countingRules.Determined pairGenesis := by
  refine ⟨pair_distinctRoots, pair_countsNonces, fun determined => ?_⟩
  have condition := (determined_iff _ _ pair_distinctRoots pair_countsNonces).1 determined
  obtain short | unable := condition
  · exact absurd short (by decide)
  · have made : (countingRules.toBlockBy pairGenesis 1).isOk = true := by decide +kernel
    cases block : countingRules.toBlockBy pairGenesis 1 with
    | error e => rw [block] at made; exact nomatch made
    | ok b =>
      obtain ⟨t, installs⟩ := exists_installs block
      exact unable 1 (by decide) t installs

end GenesisRules

end JuChain.Engine
