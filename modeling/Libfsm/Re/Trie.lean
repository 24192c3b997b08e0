import Libfsm.Adt.EdgeSet
import Libfsm.Adt.StateSet
import Libfsm.Lib.LongestSuffix

/-!
# The Trie Of A String Set

The trie of `libre/ac.c`, to which a string set's strings are added one by one.

- `TrieState`, `TrieGraph`: the records
- `trieAddWord`: adding one string, with or without an end ID
- `Tree`: the states of a trie and the set of words that lead to them
- `Spells`: the trie's states are the prefixes of the strings added
-/

namespace Libfsm

open Lib Function
open List hiding modify nil cons

variable {n : ℕ} {u : List Byte} {path : ℕ → List Byte} {E : List TrieEntry}

/-! ## §1 Records And Strings -/

/-- `struct trie_state`.  The members `st` and `have_st` belong to the conversion into an FSM
and are kept with it. -/
structure TrieState where
  children : Byte → Option ℕ := fun _ => none
  fail : Option ℕ := none
  /-- "use a state set as an endid set" -/
  endids : StateSet := .null
  output : Bool := false

/-- `struct trie_graph`; the root is the first state. -/
structure TrieGraph where
  states : List TrieState
  /-- The length of the longest string -/
  depth : ℕ := 0

variable {g : TrieGraph}

namespace TrieGraph

/-- `g->nstates` -/
def nstates (g : TrieGraph) : ℕ := g.states.length

/-- The state at a position. -/
def state (g : TrieGraph) (n : ℕ) : TrieState := g.states.getD n {}

/-- Rewrite one state in place. -/
def modify (g : TrieGraph) (n : ℕ) (h : TrieState → TrieState) : TrieGraph :=
  { g with states := g.states.modify n h }

def newstate (g : TrieGraph) : TrieGraph := { g with states := g.states ++ [{}] }

/-- A new state, as the child of `n` on `c`. -/
def addChild (g : TrieGraph) (n : ℕ) (c : Byte) : TrieGraph :=
  g.newstate.modify n fun st =>
    { st with children := update st.children c (some g.nstates) }

@[simp] theorem nstates_modify (g : TrieGraph) (n : ℕ) (h : TrieState → TrieState) :
    (g.modify n h).nstates = g.nstates := by
  simp [modify, nstates]

@[simp] theorem nstates_newstate (g : TrieGraph) : g.newstate.nstates = g.nstates + 1 := by
  simp [newstate, nstates]

@[simp] theorem nstates_addChild (g : TrieGraph) (n : ℕ) (c : Byte) :
    (g.addChild n c).nstates = g.nstates + 1 := by
  rw [addChild, nstates_modify, nstates_newstate]

theorem state_modify (hn : n < g.nstates) (h : TrieState → TrieState) (m : ℕ) :
    (g.modify n h).state m = if m = n then h (g.state n) else g.state m := by
  unfold state modify
  rw [getD_eq_getElem?_getD, getElem?_modify, getD_eq_getElem?_getD, getD_eq_getElem?_getD]
  split
  · rename_i hnm
    subst hnm
    rw [if_pos rfl, getElem?_eq_getElem hn]
    rfl
  · rename_i hnm
    rw [if_neg fun h' => hnm h'.symm]
    cases g.states[m]? <;> rfl

theorem state_newstate (g : TrieGraph) (m : ℕ) : g.newstate.state m = g.state m := by
  unfold state newstate
  rw [getD_eq_getElem?_getD, getD_eq_getElem?_getD]
  rcases lt_or_ge m g.states.length with h | h
  · rw [getElem?_append_left h]
  · rw [getElem?_eq_none h, getElem?_append_right h]
    rcases Nat.eq_zero_or_pos (m - g.states.length) with h0 | hpos
    · simp [h0]
    · rw [getElem?_eq_none (show [({} : TrieState)].length ≤ _ from hpos)]

theorem state_of_le (h : g.nstates ≤ n) : g.state n = {} := by
  unfold state
  rw [getD_eq_getElem?_getD, getElem?_eq_none h, Option.getD_none]

end TrieGraph

def trieCreate : TrieGraph := { states := [{}] }

/-- One round of the loop of `trie_add_word`: the child on `c`, made if there is none. -/
def trieDescend (p : TrieGraph × ℕ) (c : Byte) : TrieGraph × ℕ :=
  match (p.1.state p.2).children c with
  | some nx => (p.1, nx)
  | none => (p.1.addChild p.2 c, p.1.nstates)

/-- What `trie_add_word` writes at the string's last state. -/
def TrieState.addOutput (endid : Option ℕ) (st : TrieState) : TrieState :=
  { st with
    output := true
    endids := match endid with
      | some id => stateSetAdd st.endids id
      | none => st.endids }

def trieAddWord (g : TrieGraph) (w : List Byte) (endid : Option ℕ) : TrieGraph :=
  let (g, st) := w.foldl trieDescend (g, 0)
  { g.modify st (TrieState.addOutput endid) with depth := max g.depth w.length }

/-! ## §2 The Trie Spells The Strings -/

/-- A string and the end ID it is added with, if any. -/
abbrev TrieEntry := List Byte × Option ℕ

/-- `u` is one of the strings. -/
def Listed (E : List TrieEntry) (u : List Byte) : Prop := ∃ e ∈ E, e.1 = u

/-- `u` is the empty string or a prefix of one of the strings. -/
def Node (E : List TrieEntry) (u : List Byte) : Prop := u = [] ∨ ∃ e ∈ E, u <+: e.1

instance (E : List TrieEntry) (u : List Byte) : Decidable (Listed E u) :=
  inferInstanceAs (Decidable (∃ e ∈ E, e.1 = u))

instance (E : List TrieEntry) (u : List Byte) : Decidable (Node E u) :=
  inferInstanceAs (Decidable (u = [] ∨ ∃ e ∈ E, u <+: e.1))

theorem Listed.node (h : Listed E u) : Node E u := by
  obtain ⟨e, he, rfl⟩ := h
  exact .inr ⟨e, he, prefix_rfl⟩

theorem prefixClosed_node (E : List TrieEntry) : PrefixClosed (Node E) where
  nil := .inl rfl
  of_append {u v} h := by
    rcases h with h | ⟨e, he, h⟩
    · exact .inl (append_eq_nil_iff.mp h).1
    · exact .inr ⟨e, he, (prefix_append u v).trans h⟩

theorem node_append_singleton {w : List Byte} {id : Option ℕ} :
    Node (E ++ [(w, id)]) u ↔ Node E u ∨ u <+: w := by
  simp only [Node, mem_append, List.mem_singleton, or_and_right, exists_or,
    exists_eq_left, or_assoc]

theorem listed_append_singleton {w : List Byte} {id : Option ℕ} :
    Listed (E ++ [(w, id)]) u ↔ Listed E u ∨ u = w := by
  simp only [Listed, mem_append, List.mem_singleton, or_and_right, exists_or,
    exists_eq_left, eq_comm]

/-- The states of the graph are the members of `T`, each reached along its symbols. -/
structure Tree (g : TrieGraph) (T : List Byte → Prop) (path : ℕ → List Byte) : Prop where
  pos : 0 < g.nstates
  root : path 0 = []
  child : ∀ n < g.nstates, ∀ c m,
    (g.state n).children c = some m ↔ m < g.nstates ∧ path m = path n ++ [c]
  inj : ∀ n < g.nstates, ∀ m < g.nstates, path n = path m → n = m
  mem : ∀ u, T u ↔ ∃ n < g.nstates, path n = u

namespace Tree

variable {g : TrieGraph} {T : List Byte → Prop} {path : ℕ → List Byte}

theorem mem_path (h : Tree g T path) (hn : n < g.nstates) : T (path n) :=
  (h.mem _).mpr ⟨n, hn, rfl⟩

theorem child_eq_none (h : Tree g T path) (hn : n < g.nstates) {c : Byte} :
    (g.state n).children c = none ↔ ¬ T (path n ++ [c]) := by
  rw [h.mem, Option.eq_none_iff_forall_ne_some]
  simp only [ne_eq, h.child n hn, not_exists]

theorem congr (h : Tree g T path) {T' : List Byte → Prop} (hT : ∀ u, T u ↔ T' u) : Tree g T' path :=
  ⟨h.pos, h.root, h.child, h.inj, fun u => (hT u).symm.trans (h.mem u)⟩

/-- What else is written in the states makes no difference. -/
theorem of_children (h : Tree g T path) {g' : TrieGraph} (hcount : g'.nstates = g.nstates)
    (hchildren : ∀ n, (g'.state n).children = (g.state n).children) : Tree g' T path := by
  refine ⟨hcount ▸ h.pos, h.root, fun n hn c m => ?_, hcount ▸ h.inj, hcount ▸ h.mem⟩
  rw [hcount] at hn ⊢
  rw [hchildren]
  exact h.child n hn c m

/-- Every state but the root is the child of a state. -/
theorem exists_parent (h : Tree g T path) (hT : PrefixClosed T) (hn : n < g.nstates)
    (hne : path n ≠ []) :
    ∃ p < g.nstates, ∃ c, path n = path p ++ [c] ∧ (g.state p).children c = some n := by
  obtain ⟨u, c, hu⟩ : ∃ u c, path n = u ++ [c] :=
    ⟨_, _, (dropLast_append_getLast hne).symm⟩
  have hmem := h.mem_path hn
  rw [hu] at hmem
  obtain ⟨p, hp, rfl⟩ := (h.mem u).mp (hT.of_append hmem)
  exact ⟨p, hp, c, hu, (h.child p hp c n).mpr ⟨hn, hu⟩⟩

theorem eq_root (h : Tree g T path) (hn : n < g.nstates) : n = 0 ↔ path n = [] := by
  constructor
  · rintro rfl
    exact h.root
  · intro hpath
    exact h.inj n hn 0 h.pos (hpath.trans h.root.symm)

end Tree

/-- A later graph has all states of an earlier one at the same paths, with the same outputs,
end IDs and failure edges; its new states carry none. -/
structure Grown (g : TrieGraph) (path : ℕ → List Byte) (g' : TrieGraph)
    (path' : ℕ → List Byte) : Prop where
  le : g.nstates ≤ g'.nstates
  path_eq : ∀ m < g.nstates, path' m = path m
  output : ∀ m, (g'.state m).output = (g.state m).output
  endids : ∀ m, (g'.state m).endids = (g.state m).endids
  fail : ∀ m, (g'.state m).fail = (g.state m).fail
  depth : g'.depth = g.depth

theorem Grown.refl (g : TrieGraph) (path : ℕ → List Byte) : Grown g path g path :=
  ⟨le_refl _, fun _ _ => rfl, fun _ => rfl, fun _ => rfl, fun _ => rfl, rfl⟩

theorem Grown.trans {g₁ g₂ g₃ : TrieGraph} {path₁ path₂ path₃ : ℕ → List Byte}
    (h : Grown g₁ path₁ g₂ path₂) (h' : Grown g₂ path₂ g₃ path₃) : Grown g₁ path₁ g₃ path₃ where
  le := h.le.trans h'.le
  path_eq m hm := (h'.path_eq m (lt_of_lt_of_le hm h.le)).trans (h.path_eq m hm)
  output m := (h'.output m).trans (h.output m)
  endids m := (h'.endids m).trans (h.endids m)
  fail m := (h'.fail m).trans (h.fail m)
  depth := h'.depth.trans h.depth

section AddChild

variable {g : TrieGraph} {T : List Byte → Prop} {path : ℕ → List Byte} {n : ℕ}

theorem state_addChild (hn : n < g.nstates) (c : Byte) (m : ℕ) : (g.addChild n c).state m =
      if m = n then
        { g.state n with children := update (g.state n).children c (some g.nstates) }
      else g.state m := by
  have hn' : n < g.newstate.nstates := by
    rw [TrieGraph.nstates_newstate]
    exact Nat.lt_succ_of_lt hn
  rw [TrieGraph.addChild, TrieGraph.state_modify hn', TrieGraph.state_newstate,
    TrieGraph.state_newstate]

theorem children_addChild (hn : n < g.nstates) (c : Byte) (m : ℕ) (d : Byte) :
    ((g.addChild n c).state m).children d =
      if m = n ∧ d = c then some g.nstates else (g.state m).children d := by
  rw [state_addChild hn]
  by_cases hm : m = n
  · subst hm
    simp only [if_true, true_and, update_apply]
  · simp only [hm, if_false, false_and]

theorem grown_addChild (hn : n < g.nstates) (c : Byte) (u : List Byte) :
    Grown g path (g.addChild n c) (update path g.nstates u) := by
  have hstate : ∀ m, ((g.addChild n c).state m).output = (g.state m).output ∧
      ((g.addChild n c).state m).endids = (g.state m).endids ∧
      ((g.addChild n c).state m).fail = (g.state m).fail := by
    intro m
    rw [state_addChild hn]
    split
    · rename_i h
      subst h
      exact ⟨rfl, rfl, rfl⟩
    · exact ⟨rfl, rfl, rfl⟩
  refine ⟨?_, ?_, fun m => (hstate m).1, fun m => (hstate m).2.1, fun m => (hstate m).2.2, rfl⟩
  · rw [TrieGraph.nstates_addChild]
    exact Nat.le_succ _
  · intro m hm
    exact update_of_ne (ne_of_lt hm) _ _

/-- The children once one is added at a path that is not there yet. -/
theorem Tree.child_addChild (h : Tree g T path) (hT : PrefixClosed T) (hn : n < g.nstates)
    {c : Byte} (hnew : ¬ T (path n ++ [c])) {m : ℕ} (hm : m < g.nstates + 1) (d : Byte) (k : ℕ) :
    ((g.addChild n c).state m).children d = some k ↔ k < g.nstates + 1 ∧
      update path g.nstates (path n ++ [c]) k =
        update path g.nstates (path n ++ [c]) m ++ [d] := by
  have hold : ∀ m < g.nstates, update path g.nstates (path n ++ [c]) m = path m :=
    fun m hm => update_of_ne (ne_of_lt hm) _ _
  rw [children_addChild hn]
  rcases Nat.lt_succ_iff_lt_or_eq.mp hm with hm | rfl
  · rw [hold m hm]
    rcases lt_trichotomy k g.nstates with hk | rfl | hk
    · rw [hold k hk]
      split
      · rename_i hmd
        obtain ⟨rfl, rfl⟩ := hmd
        refine iff_of_false (fun hk' => ne_of_gt hk (Option.some.inj hk')) fun hpath => ?_
        exact hnew (hpath.2 ▸ h.mem_path hk)
      · rw [h.child m hm]
        exact ⟨fun hp => ⟨Nat.lt_succ_of_lt hp.1, hp.2⟩, fun hp => ⟨hk, hp.2⟩⟩
    · -- only the new edge leads to the new state
      rw [update_self]
      constructor
      · intro hk
        split at hk
        · rename_i hmd
          obtain ⟨rfl, rfl⟩ := hmd
          exact ⟨Nat.lt_succ_self _, rfl⟩
        · exact absurd ((h.child m hm d _).mp hk).1 (lt_irrefl _)
      · intro hpath
        obtain ⟨hleft, hright⟩ := append_inj' hpath.2 rfl
        obtain rfl : c = d := by simpa using hright
        rw [if_pos ⟨(h.inj n hn m hm hleft).symm, rfl⟩]
    · refine iff_of_false ?_ fun hp => Nat.not_lt_of_ge hk hp.1
      intro hk'
      split at hk'
      · exact ne_of_lt hk (Option.some.inj hk')
      · exact lt_asymm hk ((h.child m hm d k).mp hk').1
  · -- the new state has no children, and nothing extends its path
    rw [if_neg fun h' => ne_of_gt hn h'.1, TrieGraph.state_of_le (le_refl _), update_self]
    refine iff_of_false (Option.some_ne_none k).symm fun hpath => ?_
    rcases Nat.lt_succ_iff_lt_or_eq.mp hpath.1 with hk | rfl
    · have hmem := h.mem_path hk
      rw [← hold k hk, hpath.2] at hmem
      exact hnew (hT.of_append hmem)
    · simp at hpath

/-- Adding the child that is missing adds its path and nothing else. -/
theorem Tree.addChild (h : Tree g T path) (hT : PrefixClosed T) (hn : n < g.nstates) {c : Byte}
    (hnew : ¬ T (path n ++ [c])) :
    Tree (g.addChild n c) (fun u => T u ∨ u = path n ++ [c])
      (update path g.nstates (path n ++ [c])) := by
  have hold : ∀ m < g.nstates, update path g.nstates (path n ++ [c]) m = path m :=
    fun m hm => update_of_ne (ne_of_lt hm) _ _
  have hself : update path g.nstates (path n ++ [c]) g.nstates = path n ++ [c] :=
    update_self _ _ _
  -- no old state has the new path
  have hfresh : ∀ m < g.nstates, path m ≠ path n ++ [c] := by
    intro m hm heq
    exact hnew (heq ▸ h.mem_path hm)
  refine ⟨by simp, ?_, ?_, ?_, ?_⟩
  · rw [hold 0 h.pos, h.root]
  · intro m hm d k
    rw [TrieGraph.nstates_addChild] at hm ⊢
    exact h.child_addChild hT hn hnew hm d k
  · intro m hm k hk hpath
    rw [TrieGraph.nstates_addChild] at hm hk
    rcases Nat.lt_succ_iff_lt_or_eq.mp hm with hm | rfl <;>
      rcases Nat.lt_succ_iff_lt_or_eq.mp hk with hk | rfl
    · rw [hold m hm, hold k hk] at hpath
      exact h.inj m hm k hk hpath
    · rw [hold m hm, hself] at hpath
      exact absurd hpath (hfresh m hm)
    · rw [hself, hold k hk] at hpath
      exact absurd hpath.symm (hfresh k hk)
    · rfl
  · intro u
    rw [h.mem, TrieGraph.nstates_addChild]
    constructor
    · rintro (⟨m, hm, rfl⟩ | rfl)
      · exact ⟨m, Nat.lt_succ_of_lt hm, hold m hm⟩
      · exact ⟨g.nstates, Nat.lt_succ_self _, hself⟩
    · intro ⟨m, hm, hpath⟩
      rcases Nat.lt_succ_iff_lt_or_eq.mp hm with hm | rfl
      · exact .inl ⟨m, hm, (hold m hm).symm.trans hpath⟩
      · exact .inr (hpath.symm.trans hself)

theorem trieDescend_spec (h : Tree g T path) (hT : PrefixClosed T) (hn : n < g.nstates) (c : Byte) :
    ∃ path', Tree (trieDescend (g, n) c).1 (fun u => T u ∨ u = path n ++ [c]) path' ∧
      (trieDescend (g, n) c).2 < (trieDescend (g, n) c).1.nstates ∧
      path' (trieDescend (g, n) c).2 = path n ++ [c] ∧
      Grown g path (trieDescend (g, n) c).1 path' := by
  rcases hchild : (g.state n).children c with _ | m
  · have hdesc : trieDescend (g, n) c = (g.addChild n c, g.nstates) := by
      simp only [trieDescend, hchild]
    rw [hdesc]
    refine ⟨_, h.addChild hT hn ((h.child_eq_none hn).mp hchild), ?_, update_self _ _ _,
      grown_addChild hn c _⟩
    rw [TrieGraph.nstates_addChild]
    exact Nat.lt_succ_self _
  · have hdesc : trieDescend (g, n) c = (g, m) := by
      simp only [trieDescend, hchild]
    rw [hdesc]
    obtain ⟨hm, hpath⟩ := (h.child n hn c m).mp hchild
    refine ⟨path, ?_, hm, hpath, Grown.refl g path⟩
    apply h.congr
    intro u
    constructor
    · exact .inl
    · rintro (hu | rfl)
      · exact hu
      · exact hpath ▸ h.mem_path hm

end AddChild

/-- What the walk down the trie along a string does: the string's prefixes are added. -/
theorem foldl_trieDescend_spec {T : List Byte → Prop} (hT : PrefixClosed T) (w : List Byte)
    (h : Tree g T path) (hn : n < g.nstates) :
    ∃ path', Tree (w.foldl trieDescend (g, n)).1
        (fun u => T u ∨ ∃ v, v <+: w ∧ u = path n ++ v) path' ∧
      (w.foldl trieDescend (g, n)).2 < (w.foldl trieDescend (g, n)).1.nstates ∧
      path' (w.foldl trieDescend (g, n)).2 = path n ++ w ∧
      Grown g path (w.foldl trieDescend (g, n)).1 path' := by
  induction w generalizing T g path n with
  | nil =>
    refine ⟨path, ?_, hn, (append_nil _).symm, Grown.refl g path⟩
    apply h.congr
    intro u
    constructor
    · exact .inl
    · rintro (hu | ⟨v, hv, rfl⟩)
      · exact hu
      · rw [prefix_nil.mp hv, append_nil]
        exact h.mem_path hn
  | cons c w ih =>
    -- one symbol down, and the others from there
    obtain ⟨path₁, htree₁, hn₁, hpath₁, hgrown₁⟩ := trieDescend_spec h hT hn c
    rw [foldl_cons]
    obtain ⟨path₂, htree₂, hn₂, hpath₂, hgrown₂⟩ :=
      ih (hT.insert (h.mem_path hn) c) htree₁ hn₁
    refine ⟨path₂, ?_, hn₂, ?_, hgrown₁.trans hgrown₂⟩
    · apply htree₂.congr
      intro u
      rw [hpath₁]
      constructor
      · rintro ((hu | rfl) | ⟨v, hv, rfl⟩)
        · exact .inl hu
        · exact .inr ⟨[c], cons_prefix_cons.mpr ⟨rfl, nil_prefix⟩, rfl⟩
        · exact .inr ⟨c :: v, cons_prefix_cons.mpr ⟨rfl, hv⟩, by simp⟩
      · rintro (hu | ⟨v, hv, rfl⟩)
        · exact .inl (.inl hu)
        · cases v with
          | nil => exact .inl (.inl (by simpa using h.mem_path hn))
          | cons d v =>
            obtain ⟨rfl, hv'⟩ := cons_prefix_cons.mp hv
            exact .inr ⟨v, hv', by simp⟩
    · rw [hpath₂, hpath₁, append_assoc]
      rfl

/-- The trie of a list of entries: its states are the prefixes, and the last state of each
string carries the output and the end IDs. -/
structure Spells (g : TrieGraph) (E : List TrieEntry) (path : ℕ → List Byte) : Prop where
  tree : Tree g (Node E) path
  output : ∀ n < g.nstates, (g.state n).output = true ↔ Listed E (path n)
  endids : ∀ n < g.nstates, ∀ i, i ∈ (g.state n).endids ↔ (path n, some i) ∈ E
  fail : ∀ n, (g.state n).fail = none
  depth : ∀ e ∈ E, e.1.length ≤ g.depth

theorem Spells.length_path_le (h : Spells g E path) (hn : n < g.nstates) :
    (path n).length ≤ g.depth := by
  rcases h.tree.mem_path hn with h' | ⟨e, he, h'⟩
  · rw [h']
    exact Nat.zero_le _
  · exact h'.length_le.trans (h.depth e he)

theorem spells_trieCreate : Spells trieCreate [] fun _ => [] := by
  have hstate : ∀ n, trieCreate.state n = {} := by
    intro n
    cases n <;> rfl
  refine ⟨⟨Nat.zero_lt_one, rfl, ?_, ?_, ?_⟩, ?_, ?_, ?_, ?_⟩
  · intro n _ c m
    rw [hstate]
    simp
  · intro n hn m hm _
    rw [Nat.lt_one_iff.mp hn, Nat.lt_one_iff.mp hm]
  · intro u
    constructor
    · rintro (rfl | ⟨e, he, -⟩)
      · exact ⟨0, Nat.zero_lt_one, rfl⟩
      · cases he
    · rintro ⟨n, -, rfl⟩
      exact .inl rfl
  · intro n _
    rw [hstate]
    simp [Listed]
  · intro n _ i
    rw [hstate]
    simp
  · intro n
    rw [hstate]
  · intro e he
    cases he

/-- The states that a walk has added carry neither outputs nor end IDs. -/
theorem Spells.of_grown (h : Spells g E path) {T : List Byte → Prop} {g₁ : TrieGraph}
    {path' : ℕ → List Byte} (htree : Tree g₁ T path') (hgrown : Grown g path g₁ path') {m : ℕ}
    (hm : m < g₁.nstates) : ((g₁.state m).output = true ↔ Listed E (path' m)) ∧
      ∀ i, i ∈ (g₁.state m).endids ↔ (path' m, some i) ∈ E := by
  rw [hgrown.output, hgrown.endids]
  rcases lt_or_ge m g.nstates with hm' | hm'
  · rw [hgrown.path_eq m hm']
    exact ⟨h.output m hm', h.endids m hm'⟩
  · -- a state whose path was spelled before is one of the old states
    have hnew : ¬ Node E (path' m) := by
      intro hnode
      obtain ⟨k, hk, hpk⟩ := (h.tree.mem _).mp hnode
      have hk₁ := lt_of_lt_of_le hk hgrown.le
      obtain rfl := htree.inj k hk₁ m hm ((hgrown.path_eq k hk).trans hpk)
      exact Nat.not_lt_of_ge hm' hk
    rw [TrieGraph.state_of_le hm']
    exact ⟨iff_of_false Bool.false_ne_true fun hl => hnew hl.node,
      fun i => iff_of_false (notMem_null i) fun hl => hnew (.inr ⟨_, hl, prefix_rfl⟩)⟩

/-- Once all prefixes of the last string are there, its state gets the output. -/
theorem spells_addOutput {w : List Byte} {id : Option ℕ}
    (htree : Tree g (Node (E ++ [(w, id)])) path)
    (hmeans : ∀ {m}, m < g.nstates → ((g.state m).output = true ↔ Listed E (path m)) ∧
      ∀ i, i ∈ (g.state m).endids ↔ (path m, some i) ∈ E)
    (hfail : ∀ m, (g.state m).fail = none) (hdepth : ∀ e ∈ E, e.1.length ≤ g.depth)
    (hn : n < g.nstates) (hpath : path n = w) :
    Spells { g.modify n (TrieState.addOutput id) with depth := max g.depth w.length }
      (E ++ [(w, id)]) path := by
  have hstate : ∀ m, ({ g.modify n (TrieState.addOutput id) with
      depth := max g.depth w.length } : TrieGraph).state m =
      if m = n then (g.state n).addOutput id else g.state m :=
    TrieGraph.state_modify hn _
  have hcount : ({ g.modify n (TrieState.addOutput id) with
      depth := max g.depth w.length } : TrieGraph).nstates = g.nstates :=
    g.nstates_modify n _
  -- no other state has the path of the string
  have hmn : ∀ m < g.nstates, m = n ↔ path m = w := by
    intro m hm
    constructor
    · rintro rfl
      exact hpath
    · intro hw
      exact htree.inj m hm n hn (hw.trans hpath.symm)
  refine ⟨htree.of_children hcount fun m => ?_, fun m hm => ?_, fun m hm i => ?_, fun m => ?_,
    fun e he => ?_⟩
  · rw [hstate]
    split
    · rename_i hm
      rw [hm]
      rfl
    · rfl
  · rw [hcount] at hm
    rw [hstate, listed_append_singleton, ← (hmeans hm).1, ← hmn m hm]
    split
    · rename_i hm'
      exact iff_of_true rfl (.inr hm')
    · rename_i hm'
      rw [or_iff_left hm']
  · rw [hcount] at hm
    rw [hstate, mem_append, ← (hmeans hm).2, List.mem_singleton, Prod.mk.injEq, ← hmn m hm]
    split
    · rename_i hm'
      subst hm'
      cases id with
      | none => simp [TrieState.addOutput]
      | some id => simp [TrieState.addOutput, or_comm]
    · rename_i hm'
      simp [hm']
  · rw [hstate]
    split
    · exact hfail n
    · exact hfail m
  · rcases mem_append.mp he with he | he
    · exact (hdepth e he).trans (le_max_left _ _)
    · rw [List.mem_singleton.mp he]
      exact le_max_right _ _

theorem Spells.trieAddWord (h : Spells g E path) (w : List Byte)
    (id : Option ℕ) : ∃ path', Spells (trieAddWord g w id) (E ++ [(w, id)]) path' := by
  obtain ⟨path', htree, hn, hpath, hgrown⟩ :=
    foldl_trieDescend_spec (prefixClosed_node E) w h.tree h.tree.pos
  rw [h.tree.root] at htree hpath
  refine ⟨path', spells_addOutput (htree.congr fun u => ?_) (h.of_grown htree hgrown)
    (fun m => (hgrown.fail m).trans (h.fail m)) (fun e he => ?_) hn hpath⟩
  · rw [node_append_singleton]
    simp
  · rw [hgrown.depth]
    exact h.depth e he

/-- `re_strings_new` and one `re_strings_add_raw` for each entry. -/
def trieOf (E : List TrieEntry) : TrieGraph :=
  E.foldl (fun g e => trieAddWord g e.1 e.2) trieCreate

/-- The trie of any list of entries spells it. -/
theorem spells_trieOf (E : List TrieEntry) : ∃ path, Spells (trieOf E) E path := by
  induction E using List.reverseRecOn with
  | nil => exact ⟨_, spells_trieCreate⟩
  | append_singleton E e ih =>
    obtain ⟨path, hpath⟩ := ih
    obtain ⟨path', hpath'⟩ := hpath.trieAddWord e.1 e.2
    refine ⟨path', ?_⟩
    rw [trieOf, foldl_append]
    exact hpath'

end Libfsm
