import JuChain.Core.Types
import JuChain.Lib.Heap

/-!
# The node table

`p2p/discover/table.go`.  `ReadRandomNodes` copies the first nodes of the shuffled buckets in turn.
When the table has more nodes than the buffer has slots, the loop ends behind the last slot and the
count is one too large.
-/

namespace JuChain.Discover

open List

structure Node where
  id : BitVec 512
  sha : Hash
  deriving DecidableEq

/-- `Table` with the entries of its buckets, and the random numbers still to come. -/
structure Table where
  buckets : List (List Node)
  distinct : buckets.flatten.Nodup
  rand : ℕ → ℕ
  initDone : Bool

/-- The rounds of the shuffle from `i` down to 1. -/
def shuffle : ℕ → (ℕ → ℕ) → List (List Node) → List (List Node) × (ℕ → ℕ)
  | 0, rand, buckets => (buckets, rand)
  | i + 1, rand, buckets =>
    shuffle i (fun k => rand (k + 1)) (Heap.swap buckets (i + 1) (rand 0 % buckets.length))

/-- The loop that fills the buffer: the final `i` and the slots; `none` is an index out of range. -/
def fill : List (Option Node) → List (List Node) → ℕ → Option (ℕ × List (Option Node))
  | [], _, _ => some (0, [])
  | _ :: buf, buckets, j =>
    buckets[j]?.bind fun b => b.head?.bind fun node =>
      let buckets := buckets.set j b.tail
      let buckets := if b.length = 1 then buckets.eraseIdx j else buckets
      if buckets = [] then some (0, some node :: buf)
      else (fill buf buckets ((j + 1) % buckets.length)).map fun r => (r.1 + 1, some node :: r.2)

namespace Table

variable (tab : Table)

/-- All nodes. -/
def entries : List Node := tab.buckets.flatten

def readRandomNodes (buf : List (Option Node)) : Option (Table × ℕ × List (Option Node)) :=
  if !tab.initDone then some (tab, 0, buf)
  else
    let buckets := tab.buckets.filter (· ≠ [])
    if buckets = [] then some (tab, 0, buf)
    else
      let (buckets, rand) := shuffle (buckets.length - 1) tab.rand buckets
      (fill buf buckets 0).map fun r => ({ tab with rand := rand }, r.1 + 1, r.2)

end Table

variable {buckets : List (List Node)} {j : ℕ}

theorem shuffle_perm (i : ℕ) (rand : ℕ → ℕ) (buckets : List (List Node)) :
    (shuffle i rand buckets).1.Perm buckets := by
  induction i generalizing rand buckets with
  | zero => exact .refl _
  | succ i ih => exact (ih _ _).trans (Heap.swap_perm ..)

/-- One round takes the first node of a bucket out. -/
theorem take_node {b : List Node} {node : Node} (get : buckets[j]? = some (node :: b)) :
    ∃ rest, (if (node :: b).length = 1 then (buckets.set j b).eraseIdx j else buckets.set j b) = rest ∧
      (node :: rest.flatten).Perm buckets.flatten ∧ ((∀ b ∈ buckets, b ≠ []) → ∀ b ∈ rest, b ≠ []) := by
  obtain ⟨inside, here⟩ := List.getElem?_eq_some_iff.1 get
  have parts : buckets = buckets.take j ++ (node :: b) :: buckets.drop (j + 1) := by
    rw [← here, ← drop_eq_getElem_cons inside, take_append_drop]
  have left : ∀ c ∈ buckets.take j, c ∈ buckets := fun c => mem_of_mem_take
  have right : ∀ c ∈ buckets.drop (j + 1), c ∈ buckets := fun c => mem_of_mem_drop
  refine ⟨_, rfl, ?_, fun full c hc => ?_⟩
  · rw [eraseIdx_set_eq, eraseIdx_eq_take_drop_succ, set_eq_take_append_cons_drop, if_pos inside]
    conv_rhs => rw [parts]
    split_ifs with last
    · obtain rfl := length_eq_zero_iff.1 (Nat.succ.inj last)
      simp only [flatten_append, flatten_cons, singleton_append]
      exact perm_middle.symm
    · simp only [flatten_append, flatten_cons, cons_append]
      exact perm_middle.symm
  · rw [eraseIdx_set_eq, eraseIdx_eq_take_drop_succ, set_eq_take_append_cons_drop, if_pos inside] at hc
    split_ifs at hc with last
    · rcases mem_append.1 hc with hc | hc
      · exact full c (left c hc)
      · exact full c (right c hc)
    · rcases mem_append.1 hc with hc | hc
      · exact full c (left c hc)
      · rcases mem_cons.1 hc with rfl | hc
        · rintro rfl
          exact last rfl
        · exact full c (right c hc)

/-- The slots that are written, and what stays in the buckets. -/
theorem fill_spec (buf : List (Option Node)) (inside : j < buckets.length)
    (full : ∀ b ∈ buckets, b ≠ []) :
    ∃ (i : ℕ) (nodes left : List Node), fill buf buckets j =
      some (i, nodes.map some ++ buf.drop nodes.length) ∧
      (nodes ++ left).Perm buckets.flatten ∧ nodes.length = min buf.length buckets.flatten.length ∧
      i + 1 = min (buf.length + 1) buckets.flatten.length := by
  induction buf generalizing buckets j with
  | nil =>
    have some_node : buckets.flatten ≠ [] := by
      rw [Ne, flatten_eq_nil_iff]
      exact fun none => full _ (getElem_mem inside) (none _ (getElem_mem inside))
    have := length_pos_iff.2 some_node
    exact ⟨0, [], _, rfl, .refl _, by simp, by rw [length_nil]; omega⟩
  | cons slot buf ih =>
    obtain ⟨node, b, here⟩ := exists_cons_of_ne_nil (full _ (getElem_mem inside))
    have get : buckets[j]? = some (node :: b) := by rw [getElem?_eq_getElem inside, here]
    obtain ⟨rest, hrest, perm, keeps⟩ := take_node get
    have count : buckets.flatten.length = rest.flatten.length + 1 := perm.length_eq.symm
    simp only [fill, get, Option.bind_some, head?_cons, tail_cons, hrest, count]
    split_ifs with none
    · subst none
      exact ⟨0, [node], [], rfl, by simpa using perm, by simp, by simp⟩
    · obtain ⟨i, nodes, left, run, parts, written, final⟩ :=
        ih (Nat.mod_lt (j + 1) (length_pos_iff.2 none)) (keeps full)
      refine ⟨i + 1, node :: nodes, left, by rw [run]; rfl, (parts.cons node).trans perm, ?_, ?_⟩
      · rw [length_cons, length_cons, written]
        omega
      · rw [final, length_cons]
        omega

namespace Table

variable {tab : Table}

theorem readRandomNodes_spec (ready : tab.initDone) (buf : List (Option Node)) :
    ∃ (tab' : Table) (n : ℕ) (nodes : List Node),
    tab.readRandomNodes buf = some (tab', n, nodes.map some ++ buf.drop nodes.length) ∧
      tab'.buckets = tab.buckets ∧ nodes.length = min buf.length tab.entries.length ∧ nodes.Nodup ∧
      (∀ x ∈ nodes, x ∈ tab.entries) ∧ n = min (buf.length + 1) tab.entries.length := by
  have same : (tab.buckets.filter (· ≠ [])).flatten = tab.entries := flatten_filter_ne_nil
  unfold readRandomNodes
  rw [if_neg (by simp [ready])]
  dsimp only
  split_ifs with empty
  · rw [empty] at same
    exact ⟨tab, 0, [], rfl, rfl, by simp [← same], nodup_nil, by simp, by simp [← same]⟩
  · rcases hs : shuffle _ tab.rand (tab.buckets.filter (· ≠ [])) with ⟨buckets, rand⟩
    have shuffled : buckets.Perm (tab.buckets.filter (· ≠ [])) := by
      have := shuffle_perm ((tab.buckets.filter (· ≠ [])).length - 1) tab.rand
        (tab.buckets.filter (· ≠ []))
      rwa [hs] at this
    have perm : buckets.flatten.Perm tab.entries := same ▸ shuffled.flatten
    have inside : 0 < buckets.length := by
      rw [shuffled.length_eq]
      exact length_pos_iff.2 empty
    obtain ⟨i, nodes, left, run, parts, written, final⟩ := fill_spec buf inside fun b hb => by
      simpa using (mem_filter.1 (shuffled.mem_iff.1 hb)).2
    have all := parts.trans perm
    rw [perm.length_eq] at written final
    refine ⟨{ tab with rand := rand }, i + 1, nodes, by rw [run]; rfl, rfl, written, ?_,
      fun x hx => all.mem_iff.1 (mem_append_left _ hx), final⟩
    exact (nodup_append.1 (all.nodup_iff.2 tab.distinct)).1

/-- The count and the first slots are right, and nothing else has changed. -/
def Samples (tab : Table) (buf : List (Option Node)) : Prop :=
  ∃ (tab' : Table) (nodes : List Node), tab.readRandomNodes buf =
    some (tab', nodes.length, nodes.map some ++ buf.drop nodes.length) ∧
    tab'.buckets = tab.buckets ∧ nodes.length = min buf.length tab.entries.length ∧ nodes.Nodup ∧
    ∀ x ∈ nodes, x ∈ tab.entries

/-- The sample is right exactly if the buffer holds all nodes. -/
theorem samples_iff (ready : tab.initDone) (buf : List (Option Node)) :
    tab.Samples buf ↔ tab.entries.length ≤ buf.length := by
  obtain ⟨tab', n, nodes, run, same, written, distinct, known, count⟩ := readRandomNodes_spec ready buf
  constructor
  · rintro ⟨_, nodes', run', -, written', -⟩
    rw [run] at run'
    have returned : n = nodes'.length := by injection run' with h; injection h with _ h; injection h
    omega
  · intro fits
    have all : n = nodes.length := by omega
    exact ⟨tab', nodes, all ▸ run, same, written, distinct, known⟩

/-- One bucket with two nodes. -/
def pair : Table where
  buckets := [[⟨1, 0⟩, ⟨2, 0⟩]]
  distinct := by simp
  rand := fun _ => 0
  initDone := true

theorem samples_pair : pair.initDone ∧ (pair.Samples [none, none] ↔ pair.entries.length ≤ 2) :=
  ⟨rfl, samples_iff rfl _⟩

/-- Two nodes are reported in a buffer of one. -/
theorem not_samples_pair : ¬pair.Samples [none] := by
  rintro ⟨tab', nodes, run, -, written, -⟩
  injection run with run
  injection run with _ run
  injection run with count
  rw [written] at count
  cases count

end Table

end JuChain.Discover
