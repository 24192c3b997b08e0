import Libfsm.Adt.StateSet
import Mathlib.Data.BitVec
import Mathlib.Data.List.FinRange

/-!
# Edge Sets

The representation of labelled edges in `adt/edgeset.c`: a NULL pointer, or an array of
groups `⟨symbols, toState⟩`, one for each destination, in strictly ascending order of
destination.  The symbols of a group are a 256-bit set.

- `EdgeSet.HasEdge`: the relation an edge set stands for
- `edgeSetAddBulk`, `edgeSetCopy`, `edgeSetCompact`, `edgeSetRebase`: the writers, each
  with its effect on the relation
- `edgeSetFind`, `edgeSetTransition`, `edgeSetEdges`: readers that hand a destination
  back in the 24-bit field of `struct fsm_edge`
- `edgeSetGroups`: the group iterator, which hands it back in full
- `edgeSetRemoveState`, `edgeSetReplaceState`: edges to a state taken out or led elsewhere
-/

namespace Libfsm

open Lib
open List hiding set nil cons

variable {t : ℕ}

/-! ## §1 Representation -/

/-- An input byte. -/
abbrev Byte := Fin 256

-- the byte literals and membership tests below refer to these two by name
instance Byte.neZero : NeZero 256 := ⟨by decide⟩

instance : LawfulBEq Byte := inferInstance

/-- `uint64_t symbols[256/64]`, as one set of 256 bits. -/
abbrev Symbols := BitVec 256

/-- `struct edge_group` -/
structure EdgeGroup where
  /-- The labels leading to `toState` -/
  symbols : Symbols
  /-- The destination, distinct among the groups of one set -/
  toState : ℕ
  deriving DecidableEq, Repr

/-- `SYMBOLS_GET` -/
def EdgeGroup.has (g : EdgeGroup) (c : Byte) : Bool := g.symbols.getLsbD c

/-- `struct edge_set *`. -/
inductive EdgeSet where
  /-- The NULL pointer -/
  | null
  /-- The used part `groups[0 .. count)` of an allocated set -/
  | array (groups : SortedArray EdgeGroup EdgeGroup.toState)
  deriving DecidableEq

/-- The groups, in order. -/
def EdgeSet.groups : EdgeSet → List EdgeGroup
  | .null => []
  | .array gs => gs.entries

@[simp] theorem EdgeSet.groups_null : EdgeSet.null.groups = [] := rfl
@[simp] theorem EdgeSet.groups_array (gs : SortedArray EdgeGroup EdgeGroup.toState) :
    (EdgeSet.array gs).groups = gs.entries := rfl

theorem EdgeSet.groups_ascending (set : EdgeSet) : Ascending EdgeGroup.toState set.groups := by
  cases set with
  | null => exact List.Pairwise.nil
  | array gs => exact gs.ascending

/-- Groups of one set with the same destination are the same group. -/
theorem EdgeSet.group_eq {set : EdgeSet} {g g' : EdgeGroup} (hg : g ∈ set.groups)
    (hg' : g' ∈ set.groups) (h : g.toState = g'.toState) : g = g' :=
  SortedArray.eq_of_key_eq ⟨set.groups, set.groups_ascending⟩ hg hg' h

/-- The relation an edge set stands for: an edge on `c` to `t`. -/
def EdgeSet.HasEdge (set : EdgeSet) (c : Byte) (t : ℕ) : Prop :=
  ∃ g ∈ set.groups, g.toState = t ∧ g.has c = true

instance (set : EdgeSet) (c : Byte) (t : ℕ) : Decidable (set.HasEdge c t) :=
  inferInstanceAs (Decidable (∃ g ∈ set.groups, _))

@[simp] theorem hasEdge_null (c : Byte) (t : ℕ) : ¬ EdgeSet.null.HasEdge c t := by
  simp [EdgeSet.HasEdge]

/-- The relation a list of groups stands for. -/
def GroupsHave (groups : List EdgeGroup) (c : Byte) (t : ℕ) : Prop :=
  ∃ g ∈ groups, g.toState = t ∧ g.has c = true

/-- `struct fsm_edge`: the destination is packed into 24 bits. -/
structure FsmEdge where
  /-- `fsm_state_t state:24` -/
  state : BitVec 24
  /-- `unsigned char symbol` -/
  symbol : Byte
  deriving DecidableEq, Repr

/-! ## §2 Adding -/

variable {groups : List EdgeGroup} {c : Byte} {set : EdgeSet} {g : EdgeGroup}

/-- `find_state_position`: the fast paths for the last entry, then halving. -/
def findStatePosition (groups : List EdgeGroup) (state : ℕ) : Bool × ℕ :=
  match groups.getLast? with
  | none => (false, 0)
  | some last =>
    if last.toState < state then (false, groups.length)
    else if state = last.toState then (true, groups.length - 1)
    else search EdgeGroup.toState groups state

theorem findStatePosition_position (hs : Ascending EdgeGroup.toState groups) (state : ℕ) :
    Position EdgeGroup.toState groups state (findStatePosition groups state) := by
  unfold findStatePosition
  split
  · rename_i h
    obtain rfl := getLast?_eq_none_iff.mp h
    simp [Position, Splits]
  · rename_i last h
    obtain ⟨init, rfl⟩ := getLast?_eq_some_iff.mp h
    split
    · -- appending: everything is at or below the last entry
      rename_i hlt
      simp only [Ascending, pairwise_append] at hs
      refine ⟨fun x hx => ?_, by simp⟩
      rw [take_length, mem_append, List.mem_singleton] at hx
      rcases hx with hx | rfl
      · exact (hs.2.2 x hx last (mem_singleton_self last)).trans hlt
      · exact hlt
    · split
      · rename_i heq
        exact ⟨last, by simp, heq.symm⟩
      · exact search_position hs state

/-- The bit-parallel union of labels into a group. -/
def EdgeGroup.addSymbols (symbols : Symbols) (g : EdgeGroup) : EdgeGroup :=
  { g with symbols := g.symbols ||| symbols }

@[simp] theorem EdgeGroup.toState_addSymbols (symbols : Symbols) (g : EdgeGroup) :
    (g.addSymbols symbols).toState = g.toState := rfl

@[simp] theorem EdgeGroup.has_addSymbols (symbols : Symbols) (g : EdgeGroup) (c : Byte) :
    (g.addSymbols symbols).has c = (g.has c || symbols.getLsbD c) :=
  BitVec.getLsbD_or

def edgeSetAddBulk (set : EdgeSet) (symbols : Symbols) (state : ℕ) : EdgeSet :=
  match set with
  | .null => .array ⟨[⟨symbols, state⟩], pairwise_singleton _ _⟩
  | .array gs =>
    .array
      { entries := upsertAt gs.entries (EdgeGroup.addSymbols symbols) ⟨symbols, state⟩
          (findStatePosition gs.entries state)
        ascending := upsertAt_ascending gs.ascending
          (findStatePosition_position gs.ascending state)
          (EdgeGroup.toState_addSymbols symbols) rfl }

def edgeSetAdd (set : EdgeSet) (symbol : Byte) (state : ℕ) : EdgeSet :=
  edgeSetAddBulk set (BitVec.twoPow 256 symbol) state

/-- `edge_set_advise_growth`: only the capacity grows, but NULL becomes an empty array. -/
def edgeSetAdviseGrowth (set : EdgeSet) : EdgeSet :=
  match set with
  | .null => .array SortedArray.empty
  | .array gs => .array gs

/-- Labels put into the group of their destination, or into a new one at its place. -/
theorem groupsHave_upsertAt (hs : Ascending EdgeGroup.toState groups) {symbols : Symbols}
    {state : ℕ} {pos : Bool × ℕ} (hpos : Position EdgeGroup.toState groups state pos) (c : Byte)
    (t : ℕ) :
    GroupsHave (upsertAt groups (EdgeGroup.addSymbols symbols) ⟨symbols, state⟩ pos) c t ↔
      GroupsHave groups c t ∨ (t = state ∧ symbols.getLsbD c = true) := by
  by_cases ht : t = state
  · subst ht
    have hmem : ∀ y : EdgeGroup, y.toState = t →
        (y ∈ upsertAt groups (EdgeGroup.addSymbols symbols) ⟨symbols, t⟩ pos ↔
          (∃ x ∈ groups, x.toState = t ∧ y = x.addSymbols symbols) ∨
            ((∀ x ∈ groups, x.toState ≠ t) ∧ y = ⟨symbols, t⟩)) := fun y hy =>
      mem_upsertAt_of_key_eq hs hpos hy
    constructor
    · intro ⟨g, hg, hgt, hc⟩
      rcases (hmem g hgt).mp hg with ⟨x, hx, hxt, rfl⟩ | ⟨-, rfl⟩
      · rw [EdgeGroup.has_addSymbols, Bool.or_eq_true] at hc
        rcases hc with hc | hc
        · exact .inl ⟨x, hx, hxt, hc⟩
        · exact .inr ⟨rfl, hc⟩
      · exact .inr ⟨rfl, hc⟩
    · rintro (⟨g, hg, hgt, hc⟩ | ⟨-, hc⟩)
      · exact ⟨g.addSymbols symbols, (hmem (g.addSymbols symbols) hgt).mpr
            (.inl ⟨g, hg, hgt, rfl⟩), hgt,
          by rw [EdgeGroup.has_addSymbols, hc, Bool.true_or]⟩
      · -- the group for `t` gets the symbols, whether it is there already or new
        by_cases hex : ∃ g ∈ groups, g.toState = t
        · obtain ⟨g, hg, hgt⟩ := hex
          exact ⟨g.addSymbols symbols, (hmem (g.addSymbols symbols) hgt).mpr
            (.inl ⟨g, hg, hgt, rfl⟩), hgt,
            by rw [EdgeGroup.has_addSymbols, hc, Bool.or_true]⟩
        · refine ⟨⟨symbols, t⟩, (hmem _ rfl).mpr (.inr ⟨?_, rfl⟩), rfl, hc⟩
          exact fun x hx hxt => hex ⟨x, hx, hxt⟩
  -- the groups of other destinations are as they were
  · simp only [ht, false_and, or_false]
    have hmem : ∀ g : EdgeGroup, g.toState = t →
        (g ∈ upsertAt groups (EdgeGroup.addSymbols symbols) ⟨symbols, state⟩ pos ↔
          g ∈ groups) := fun g hg =>
      mem_upsertAt_of_key_ne (EdgeGroup.toState_addSymbols symbols) rfl (fun _ => hpos)
        (fun h => ht (hg.symm.trans h))
    constructor
    · intro ⟨g, hg, hgt, hc⟩
      exact ⟨g, (hmem g hgt).mp hg, hgt, hc⟩
    · intro ⟨g, hg, hgt, hc⟩
      exact ⟨g, (hmem g hgt).mpr hg, hgt, hc⟩

/-- Adding a group adds exactly its symbols, all leading to its destination. -/
theorem hasEdge_edgeSetAddBulk (set : EdgeSet) (symbols : Symbols) (state : ℕ) (c : Byte) (t : ℕ) :
    (edgeSetAddBulk set symbols state).HasEdge c t ↔
      set.HasEdge c t ∨ (t = state ∧ symbols.getLsbD c = true) := by
  cases set with
  | null =>
    constructor
    · rintro ⟨g, hg, hgt, hc⟩
      obtain rfl := List.mem_singleton.mp hg
      exact .inr ⟨hgt.symm, hc⟩
    · rintro (h | ⟨rfl, hc⟩)
      · exact absurd h (hasEdge_null c t)
      · exact ⟨_, mem_singleton_self _, rfl, hc⟩
  | array gs =>
    exact groupsHave_upsertAt gs.ascending (findStatePosition_position gs.ascending state) c t

theorem getLsbD_twoPow_iff (symbol c : Byte) :
    (BitVec.twoPow 256 symbol).getLsbD c = true ↔ c = symbol := by
  simp [Fin.ext_iff, eq_comm]

@[simp] theorem hasEdge_edgeSetAdd (set : EdgeSet) (symbol : Byte) (state : ℕ) (c : Byte) (t : ℕ) :
    (edgeSetAdd set symbol state).HasEdge c t ↔
      set.HasEdge c t ∨ (t = state ∧ c = symbol) := by
  rw [edgeSetAdd, hasEdge_edgeSetAddBulk, getLsbD_twoPow_iff]

/-- One edge to `t` for each symbol of a list. -/
def edgeSetAddAll (edges : EdgeSet) (cs : List Byte) (t : ℕ) : EdgeSet :=
  cs.foldl (fun edges c => edgeSetAdd edges c t) edges

theorem hasEdge_edgeSetAddAll {edges : EdgeSet} {cs : List Byte} {t' : ℕ} :
    (edgeSetAddAll edges cs t).HasEdge c t' ↔ edges.HasEdge c t' ∨ (t' = t ∧ c ∈ cs) := by
  rw [edgeSetAddAll, foldl_or_iff (EdgeSet.HasEdge · c t') fun _ _ => by rw [hasEdge_edgeSetAdd]]
  simp [and_comm]

@[simp] theorem hasEdge_edgeSetAdviseGrowth (set : EdgeSet) (c : Byte) (t : ℕ) :
    (edgeSetAdviseGrowth set).HasEdge c t ↔ set.HasEdge c t := by
  cases set <;> simp [edgeSetAdviseGrowth, EdgeSet.HasEdge]

/-! ## §3 Reading -/

/-- `edge_set_empty`: no group has a symbol. -/
def edgeSetEmpty (set : EdgeSet) : Bool := set.groups.all (fun g => g.symbols == 0)

/-- `edge_set_find`: the first group with the symbol, its destination cut to 24 bits. -/
def edgeSetFind (set : EdgeSet) (symbol : Byte) : Option FsmEdge :=
  (set.groups.find? (fun g => g.has symbol)).map fun g =>
    ⟨BitVec.ofNat 24 g.toState, symbol⟩

def edgeSetTransition (set : EdgeSet) (symbol : Byte) : Option ℕ :=
  (edgeSetFind set symbol).map fun e => e.state.toNat

def edgeSetContains (set : EdgeSet) (symbol : Byte) : Bool :=
  if edgeSetEmpty set then false else set.groups.any (fun g => g.has symbol)

/-- The labels of a group in ascending order, as `edge_set_next` walks them. -/
def EdgeGroup.labels (g : EdgeGroup) : List Byte := (finRange 256).filter g.has

/-- The edges `edge_set_next` yields, group by group. -/
def edgeSetEdges (set : EdgeSet) : List FsmEdge :=
  set.groups.flatMap fun g => g.labels.map fun c => ⟨BitVec.ofNat 24 g.toState, c⟩

/-- The edges `edge_set_ordered_iter_next` yields, symbol by symbol. -/
def edgeSetOrderedEdges (set : EdgeSet) : List FsmEdge :=
  (finRange 256).flatMap fun c =>
    (set.groups.filter fun g => g.has c).map fun g => ⟨BitVec.ofNat 24 g.toState, c⟩

/-- The groups `edge_set_group_iter_next` yields in mode `EDGE_GROUP_ITER_ALL`. -/
def edgeSetGroups (set : EdgeSet) : List EdgeGroup :=
  set.groups.filter (fun g => g.symbols != 0)

/-- One step of `edge_set_hasnondeterminism`: the symbols seen so far, and whether one of
them was met again. -/
def edgeSetHasnondeterminismStep (st : Bool × Symbols) (g : EdgeGroup) : Bool × Symbols :=
  (st.1 || (st.2 &&& g.symbols != 0), st.2 ||| g.symbols)

/-- `edge_set_hasnondeterminism`, with a clear bitmap. -/
def edgeSetHasnondeterminism (set : EdgeSet) : Bool :=
  if edgeSetEmpty set then false
  else (set.groups.foldl edgeSetHasnondeterminismStep (false, 0)).1

theorem symbols_ne_zero_iff (sy : Symbols) : sy ≠ 0 ↔ ∃ c : Byte, sy.getLsbD c = true := by
  constructor
  · intro h
    by_contra hne
    push Not at hne
    apply h
    apply BitVec.eq_of_getLsbD_eq
    intro i hi
    simpa using hne ⟨i, hi⟩
  · rintro ⟨c, hc⟩ rfl
    simp at hc

theorem EdgeGroup.symbols_ne_zero_iff (g : EdgeGroup) : g.symbols ≠ 0 ↔ ∃ c, g.has c = true :=
  Libfsm.symbols_ne_zero_iff g.symbols

theorem edgeSetEmpty_eq_true_iff (set : EdgeSet) :
    edgeSetEmpty set = true ↔ ∀ c t, ¬ set.HasEdge c t := by
  simp only [edgeSetEmpty, all_eq_true, beq_iff_eq]
  constructor
  · rintro h c t ⟨g, hg, -, hc⟩
    exact (g.symbols_ne_zero_iff.mpr ⟨c, hc⟩) (h g hg)
  · intro h g hg
    by_contra hne
    obtain ⟨c, hc⟩ := g.symbols_ne_zero_iff.mp hne
    exact h c g.toState ⟨g, hg, rfl, hc⟩

theorem mem_edgeSetGroups : g ∈ edgeSetGroups set ↔ g ∈ set.groups ∧ ∃ c, g.has c = true := by
  rw [edgeSetGroups, mem_filter, bne_iff_ne, g.symbols_ne_zero_iff]

/-- The group iterator yields the destinations that are really reached. -/
theorem exists_mem_edgeSetGroups_iff :
    (∃ g ∈ edgeSetGroups set, g.toState = t) ↔ ∃ c, set.HasEdge c t := by
  constructor
  · rintro ⟨g, hg, rfl⟩
    obtain ⟨hg, c, hc⟩ := mem_edgeSetGroups.mp hg
    exact ⟨c, g, hg, rfl, hc⟩
  · rintro ⟨c, g, hg, rfl, hc⟩
    exact ⟨g, mem_edgeSetGroups.mpr ⟨hg, c, hc⟩, rfl⟩

theorem EdgeGroup.mem_labels : c ∈ g.labels ↔ g.has c = true := by
  simp [EdgeGroup.labels]

theorem mem_edgeSetEdges {e : FsmEdge} : e ∈ edgeSetEdges set ↔
      ∃ t, set.HasEdge e.symbol t ∧ e.state = BitVec.ofNat 24 t := by
  simp only [edgeSetEdges, mem_flatMap, mem_map, EdgeGroup.mem_labels]
  constructor
  · rintro ⟨g, hg, c, hc, rfl⟩
    exact ⟨g.toState, ⟨g, hg, rfl, hc⟩, rfl⟩
  · rintro ⟨t, ⟨g, hg, rfl, hc⟩, he⟩
    exact ⟨g, hg, e.symbol, hc, by rw [← he]⟩

theorem edgeSetContains_eq_true_iff : edgeSetContains set c = true ↔ ∃ t, set.HasEdge c t := by
  unfold edgeSetContains
  split
  · rename_i h
    have hno := (edgeSetEmpty_eq_true_iff set).mp h
    simp [hno]
  · simp only [any_eq_true]
    constructor
    · rintro ⟨g, hg, hc⟩
      exact ⟨g.toState, g, hg, rfl, hc⟩
    · rintro ⟨t, g, hg, -, hc⟩
      exact ⟨g, hg, hc⟩

/-! ### Determinism -/

/-- A symbol leads to at most one destination. -/
def EdgeSet.Functional (set : EdgeSet) : Prop :=
  ∀ c t t', set.HasEdge c t → set.HasEdge c t' → t = t'

/-- Two groups share no label. -/
def EdgeGroup.LabelsDisjoint (g g' : EdgeGroup) : Prop :=
  ∀ c, ¬ (g.has c = true ∧ g'.has c = true)

instance : Std.Symm EdgeGroup.LabelsDisjoint := ⟨fun _ _ h c hc => h c hc.symm⟩

private theorem foldl_nondeterminism_iff (gs : List EdgeGroup) (st : Bool × Symbols) :
    (gs.foldl edgeSetHasnondeterminismStep st).1 = false ↔
      st.1 = false ∧ (∀ g ∈ gs, ∀ c : Byte, ¬ (st.2.getLsbD c = true ∧ g.has c = true)) ∧
        gs.Pairwise EdgeGroup.LabelsDisjoint := by
  induction gs generalizing st with
  | nil => simp
  | cons g gs ih =>
    have hstep : (edgeSetHasnondeterminismStep st g).1 = false ↔
        st.1 = false ∧ ∀ c : Byte, ¬ (st.2.getLsbD c = true ∧ g.has c = true) := by
      have hz := (not_iff_comm.mp (Libfsm.symbols_ne_zero_iff (st.2 &&& g.symbols))).symm
      simp only [edgeSetHasnondeterminismStep, Bool.or_eq_false_iff, bne_eq_false_iff_eq, hz,
        not_exists, BitVec.getLsbD_and, Bool.and_eq_true, EdgeGroup.has]
    have hbits : ∀ c : Byte, (edgeSetHasnondeterminismStep st g).2.getLsbD c = true ↔
        st.2.getLsbD c = true ∨ g.has c = true := by
      intro c
      simp only [edgeSetHasnondeterminismStep, BitVec.getLsbD_or, Bool.or_eq_true, EdgeGroup.has]
    rw [foldl_cons, ih, hstep, pairwise_cons]
    simp only [hbits, mem_cons, forall_eq_or_imp, EdgeGroup.LabelsDisjoint]
    constructor
    · rintro ⟨⟨h₁, h₂⟩, h₃, h₄⟩
      exact ⟨h₁, ⟨h₂, fun g' hg' c hc => h₃ g' hg' c ⟨.inl hc.1, hc.2⟩⟩,
        fun g' hg' c hc => h₃ g' hg' c ⟨.inr hc.1, hc.2⟩, h₄⟩
    · rintro ⟨h₁, ⟨h₂, h₃⟩, h₄, h₅⟩
      refine ⟨⟨h₁, h₂⟩, fun g' hg' c hc => ?_, h₅⟩
      rcases hc with ⟨hc | hc, hc'⟩
      · exact h₃ g' hg' c ⟨hc, hc'⟩
      · exact h₄ g' hg' c ⟨hc, hc'⟩

/-- The bitmap test decides determinism of the relation: destinations of distinct groups
are distinct, so a repeated symbol is exactly a symbol with two destinations. -/
theorem edgeSetHasnondeterminism_eq_false_iff (set : EdgeSet) :
    edgeSetHasnondeterminism set = false ↔ set.Functional := by
  unfold edgeSetHasnondeterminism
  split
  · rename_i h
    have hno := (edgeSetEmpty_eq_true_iff set).mp h
    simp [EdgeSet.Functional, hno]
  · rw [foldl_nondeterminism_iff]
    simp only [BitVec.ofNat_eq_ofNat, BitVec.getLsbD_zero, Bool.false_eq_true, false_and,
      not_false_eq_true, implies_true, true_and]
    constructor
    · rintro hpw c t t' ⟨g, hg, rfl, hc⟩ ⟨g', hg', rfl, hc'⟩
      by_contra hne
      exact hpw.forall hg hg' (fun h => hne (congrArg EdgeGroup.toState h)) c ⟨hc, hc'⟩
    · intro hf
      refine set.groups_ascending.imp_of_mem ?_
      rintro g g' hg hg' hlt c ⟨hc, hc'⟩
      exact hlt.ne (hf c _ _ ⟨g, hg, rfl, hc⟩ ⟨g', hg', rfl, hc'⟩)

/-- Through a deterministic set, `edge_set_transition` reports the one destination, cut to
24 bits. -/
theorem edgeSetTransition_eq_some_iff (hf : set.Functional) :
    edgeSetTransition set c = some t ↔ ∃ t', set.HasEdge c t' ∧ t = t' % 2 ^ 24 := by
  simp only [edgeSetTransition, edgeSetFind, Option.map_map, Option.map_eq_some_iff,
    Function.comp_apply, BitVec.toNat_ofNat]
  constructor
  · rintro ⟨g, hg, rfl⟩
    have hc : g.has c = true := by simpa using find?_some hg
    exact ⟨g.toState, ⟨g, mem_of_find?_eq_some hg, rfl, hc⟩, rfl⟩
  · rintro ⟨t', ⟨g, hg, rfl, hc⟩, rfl⟩
    obtain ⟨g', hg'⟩ : ∃ g', set.groups.find? (fun g => g.has c) = some g' :=
      Option.isSome_iff_exists.mp (find?_isSome.mpr ⟨g, hg, hc⟩)
    have hc' : g'.has c = true := by simpa using find?_some hg'
    have hto : g'.toState = g.toState :=
      hf c _ _ ⟨g', mem_of_find?_eq_some hg', rfl, hc'⟩ ⟨g, hg, rfl, hc⟩
    exact ⟨g', hg', by rw [hto]⟩

theorem mem_edgeSetOrderedEdges {e : FsmEdge} : e ∈ edgeSetOrderedEdges set ↔
      ∃ t, set.HasEdge e.symbol t ∧ e.state = BitVec.ofNat 24 t := by
  simp only [edgeSetOrderedEdges, mem_flatMap, mem_finRange, true_and, mem_map,
    mem_filter]
  constructor
  · rintro ⟨c, g, ⟨hg, hc⟩, rfl⟩
    exact ⟨g.toState, ⟨g, hg, rfl, hc⟩, rfl⟩
  · rintro ⟨t, ⟨g, hg, rfl, hc⟩, hst⟩
    exact ⟨e.symbol, g, ⟨hg, hc⟩, by rw [← hst]⟩

/-- Through a deterministic set, the ordered iterator yields each symbol once. -/
theorem pairwise_edgeSetOrderedEdges (hf : set.Functional) :
    (edgeSetOrderedEdges set).Pairwise fun e e' => e.symbol ≠ e'.symbol := by
  unfold edgeSetOrderedEdges
  rw [pairwise_flatMap]
  refine ⟨?_, ?_⟩
  · intro c _
    -- one group at most has the symbol
    rw [pairwise_map]
    refine List.Pairwise.imp_of_mem ?_ (set.groups_ascending.filter _)
    intro g g' hg hg' hlt
    obtain ⟨hg, hc⟩ := mem_filter.mp hg
    obtain ⟨hg', hc'⟩ := mem_filter.mp hg'
    exact absurd (hf c _ _ ⟨g, hg, rfl, hc⟩ ⟨g', hg', rfl, hc'⟩) hlt.ne
  · refine (nodup_finRange 256).imp ?_
    intro c c' hne e he e' he'
    obtain ⟨g, -, rfl⟩ := mem_map.mp he
    obtain ⟨g', -, rfl⟩ := mem_map.mp he'
    exact hne

theorem edgeSetTransition_eq_none_iff :
    edgeSetTransition set c = none ↔ ∀ t, ¬ set.HasEdge c t := by
  simp only [edgeSetTransition, edgeSetFind, Option.map_eq_none_iff, find?_eq_none]
  constructor
  · rintro h t ⟨g, hg, -, hc⟩
    exact h g hg hc
  · intro h g hg hc
    exact h g.toState ⟨g, hg, rfl, hc⟩

/-! ## §4 Copying And Renumbering -/

/-- `edge_set_copy` into a NULL destination: a copy of the groups, or NULL again when
there is no symbol. -/
def edgeSetCopy (src : EdgeSet) : EdgeSet := if edgeSetEmpty src then .null else src

/-- `edge_set_rebase`: shift every destination, unless there is no symbol at all. -/
def edgeSetRebase (set : EdgeSet) (base : ℕ) : EdgeSet :=
  if edgeSetEmpty set then set
  else
    match set with
    | .null => .null
    | .array gs =>
      .array
        { entries := gs.entries.map fun g => { g with toState := g.toState + base }
          ascending := pairwise_map.mpr
            (gs.ascending.imp fun h => Nat.add_lt_add_right h base) }

/-- The labels of all groups that `remap` sends to `t`. -/
def compactSymbols (groups : List EdgeGroup) (remap : ℕ → Option ℕ) (t : ℕ) : Symbols :=
  groups.foldl (fun sy g => if remap g.toState = some t then sy ||| g.symbols else sy) 0

/-- The distinct new destinations in ascending order; the `assignment` of a group is the
index of its new destination here. -/
def compactTargets (groups : List EdgeGroup) (remap : ℕ → Option ℕ) : List ℕ :=
  sortDedup (groups.filterMap fun g => remap g.toState)

/-- `edge_set_compact`: renumber the destinations, dropping those without a new number and merging
groups that meet. -/
def edgeSetCompact (set : EdgeSet) (remap : ℕ → Option ℕ) : EdgeSet :=
  if edgeSetEmpty set then set
  else if compactTargets set.groups remap = [] then
    -- one group with no symbol is left behind
    .array ⟨[⟨0, 0⟩], pairwise_singleton _ _⟩
  else
    .array
      { entries := (compactTargets set.groups remap).map fun t =>
          ⟨compactSymbols set.groups remap t, t⟩
        ascending := pairwise_map.mpr (sortDedup_pairwise_lt _) }

@[simp] theorem hasEdge_edgeSetCopy (src : EdgeSet) (c : Byte) (t : ℕ) :
    (edgeSetCopy src).HasEdge c t ↔ src.HasEdge c t := by
  unfold edgeSetCopy
  split
  · rename_i h
    simp [(edgeSetEmpty_eq_true_iff src).mp h c t]
  · rfl

@[simp] theorem hasEdge_edgeSetRebase (set : EdgeSet) (base : ℕ) (c : Byte) (t : ℕ) :
    (edgeSetRebase set base).HasEdge c t ↔ ∃ t', set.HasEdge c t' ∧ t' + base = t := by
  unfold edgeSetRebase
  split
  · rename_i h
    have hno := (edgeSetEmpty_eq_true_iff set).mp h
    simp [hno]
  · cases set with
    | null => simp
    | array gs =>
      simp only [EdgeSet.HasEdge, EdgeSet.groups_array, mem_map]
      constructor
      · rintro ⟨_, ⟨g, hg, rfl⟩, rfl, hc⟩
        exact ⟨g.toState, ⟨g, hg, rfl, hc⟩, rfl⟩
      · rintro ⟨_, ⟨g, hg, rfl, hc⟩, rfl⟩
        exact ⟨_, ⟨g, hg, rfl⟩, rfl, hc⟩

/-- Labels gathered from some of the groups. -/
theorem getLsbD_foldl_or (p : EdgeGroup → Prop) [DecidablePred p] (gs : List EdgeGroup)
    (init : Symbols) (c : Byte) :
    (gs.foldl (fun labels eg => if p eg then labels ||| eg.symbols else labels) init).getLsbD c =
      true ↔ init.getLsbD c = true ∨ ∃ eg ∈ gs, p eg ∧ eg.has c = true := by
  apply foldl_or_iff (fun labels : Symbols => labels.getLsbD c = true)
  intro labels eg
  by_cases hp : p eg
  · rw [if_pos hp, BitVec.getLsbD_or, Bool.or_eq_true, and_iff_right hp, EdgeGroup.has]
  · simp [hp]

section

variable (groups : List EdgeGroup) (remap : ℕ → Option ℕ)

theorem getLsbD_compactSymbols (t : ℕ) (c : Byte) :
    (compactSymbols groups remap t).getLsbD c = true ↔
      ∃ g ∈ groups, remap g.toState = some t ∧ g.has c = true := by
  rw [compactSymbols, getLsbD_foldl_or fun g => remap g.toState = some t]
  simp

/-- The groups for the new destinations have the image of the relation. -/
theorem groupsHave_compacted (c : Byte) (t : ℕ) :
    GroupsHave (if compactTargets groups remap = [] then [⟨0, 0⟩]
        else (compactTargets groups remap).map fun t => ⟨compactSymbols groups remap t, t⟩) c t ↔
      ∃ t', GroupsHave groups c t' ∧ remap t' = some t := by
  have himage : (∃ t', GroupsHave groups c t' ∧ remap t' = some t) ↔
      ∃ g ∈ groups, remap g.toState = some t ∧ g.has c = true := by
    constructor
    · intro ⟨_, ⟨g, hg, hgt, hc⟩, hr⟩
      exact ⟨g, hg, hgt ▸ hr, hc⟩
    · intro ⟨g, hg, hr, hc⟩
      exact ⟨_, ⟨g, hg, rfl, hc⟩, hr⟩
  have htarget : t ∈ compactTargets groups remap ↔
      ∃ g ∈ groups, remap g.toState = some t := by
    simp [compactTargets]
  rw [himage]
  -- when no edge is left, one group without labels stays behind
  split
  · rename_i hnil
    constructor
    · intro ⟨g, hg, _, hc⟩
      obtain rfl := List.mem_singleton.mp hg
      simp [EdgeGroup.has] at hc
    · intro ⟨g, hg, hr, _⟩
      have hmem := htarget.mpr ⟨g, hg, hr⟩
      rw [hnil] at hmem
      cases hmem
  · constructor
    · intro ⟨g', hg', ht, hc⟩
      obtain ⟨u, hu, rfl⟩ := mem_map.mp hg'
      obtain rfl : u = t := ht
      exact (getLsbD_compactSymbols groups remap u c).mp hc
    · intro ⟨g, hg, hr, hc⟩
      exact ⟨_, mem_map_of_mem (htarget.mpr ⟨g, hg, hr⟩), rfl,
        (getLsbD_compactSymbols groups remap t c).mpr ⟨g, hg, hr, hc⟩⟩

end

/-- Compacting takes the image of the relation under the renumbering. -/
@[simp] theorem hasEdge_edgeSetCompact (set : EdgeSet) (remap : ℕ → Option ℕ) (c : Byte) (t : ℕ) :
    (edgeSetCompact set remap).HasEdge c t ↔
      ∃ t', set.HasEdge c t' ∧ remap t' = some t := by
  have himage := groupsHave_compacted set.groups remap c t
  unfold edgeSetCompact
  split
  · rename_i h
    simp [(edgeSetEmpty_eq_true_iff set).mp h]
  · split
    · rename_i hnil
      rw [if_pos hnil] at himage
      exact himage
    · rename_i hsome
      rw [if_neg hsome] at himage
      exact himage

/-! ## §5 Removing And Replacing -/

/-- `SYMBOLS_CLEAR` -/
def EdgeGroup.clearSymbol (symbol : Byte) (g : EdgeGroup) : EdgeGroup :=
  { g with symbols := g.symbols &&& ~~~ BitVec.twoPow 256 symbol }

@[simp] theorem EdgeGroup.toState_clearSymbol (symbol : Byte) (g : EdgeGroup) :
    (g.clearSymbol symbol).toState = g.toState := rfl

@[simp] theorem EdgeGroup.has_clearSymbol (symbol : Byte) (g : EdgeGroup) (c : Byte) :
    (g.clearSymbol symbol).has c = true ↔ g.has c = true ∧ c ≠ symbol := by
  rw [EdgeGroup.has, EdgeGroup.clearSymbol, BitVec.getLsbD_and, Bool.and_eq_true,
    BitVec.getLsbD_not, Bool.and_eq_true, Bool.not_eq_true', ← Bool.not_eq_true,
    getLsbD_twoPow_iff]
  simp [EdgeGroup.has]

def findFirstGroupLabel (g : EdgeGroup) : Option Byte := (finRange 256).find? g.has

theorem findFirstGroupLabel_eq_none_iff : findFirstGroupLabel g = none ↔ g.symbols = 0 := by
  rw [findFirstGroupLabel, ← not_iff_not, ← ne_eq (a := g.symbols), g.symbols_ne_zero_iff]
  simp

theorem has_of_findFirstGroupLabel {label : Byte}
    (h : findFirstGroupLabel g = some label) : g.has label = true :=
  find?_some h

/-- The groups after `edge_set_add_bulk` on an allocated set. -/
def addGroup (groups : List EdgeGroup) (symbols : Symbols) (state : ℕ) : List EdgeGroup :=
  upsertAt groups (EdgeGroup.addSymbols symbols) ⟨symbols, state⟩ (findStatePosition groups state)

theorem addGroup_ascending (hs : Ascending EdgeGroup.toState groups) (symbols : Symbols)
    (state : ℕ) : Ascending EdgeGroup.toState (addGroup groups symbols state) :=
  upsertAt_ascending hs (findStatePosition_position hs state)
    (EdgeGroup.toState_addSymbols symbols) rfl

/-- The loop of `edge_set_remove_state` on the groups. -/
def removeStateGroups (groups : List EdgeGroup) (state : ℕ) : List EdgeGroup :=
  groups.filter fun g => g.toState ≠ state

/-- The loops of `edge_set_replace_state` on the groups.  The group of `old` is taken out, one
of its labels is added for `new`, and the others follow from the copy. -/
def replaceStateGroups (groups : List EdgeGroup) (old new : ℕ) : List EdgeGroup :=
  match groups.find? fun g => g.toState = old with
  | none => groups
  | some cp =>
    match findFirstGroupLabel cp with
    -- an empty group is ignored
    | none => groups
    | some label =>
      let groups := addGroup (groups.erase cp) (BitVec.twoPow 256 label) new
      groups.modify (groups.findIdx fun g => g.toState = new) (EdgeGroup.addSymbols cp.symbols)

section

variable (hs : Ascending EdgeGroup.toState groups)
include hs

theorem groupsHave_addGroup (symbols : Symbols) (state : ℕ) (c : Byte) (t : ℕ) :
    GroupsHave (addGroup groups symbols state) c t ↔
      GroupsHave groups c t ∨ (t = state ∧ symbols.getLsbD c = true) :=
  hasEdge_edgeSetAddBulk (.array ⟨groups, hs⟩) symbols state c t

theorem nodup_of_ascending : groups.Nodup := by
  refine List.Pairwise.imp ?_ hs
  rintro g _ hlt rfl
  exact lt_irrefl _ hlt

theorem groupsHave_erase {cp : EdgeGroup} (hcp : cp ∈ groups) (c : Byte) (t : ℕ) :
    GroupsHave (groups.erase cp) c t ↔ GroupsHave groups c t ∧ t ≠ cp.toState := by
  have hnodup : groups.Nodup := nodup_of_ascending hs
  constructor
  · intro ⟨g, hg, hgt, hc⟩
    obtain ⟨hne, hg⟩ := hnodup.mem_erase_iff.mp hg
    refine ⟨⟨g, hg, hgt, hc⟩, fun hto => hne ?_⟩
    exact SortedArray.eq_of_key_eq ⟨groups, hs⟩ hg hcp (hgt.trans hto)
  · intro ⟨⟨g, hg, hgt, hc⟩, hne⟩
    refine ⟨g, hnodup.mem_erase_iff.mpr ⟨?_, hg⟩, hgt, hc⟩
    rintro rfl
    exact hne hgt.symm

/-- After adding, the first group with the destination is one. -/
theorem position_findIdx_addGroup (symbols : Symbols) (state : ℕ) :
    Position EdgeGroup.toState (addGroup groups symbols state) state
      (true, (addGroup groups symbols state).findIdx fun g => g.toState = state) := by
  obtain ⟨g, hg, hgs⟩ : ∃ g ∈ addGroup groups symbols state, g.toState = state :=
    exists_mem_upsertAt (findStatePosition_position hs state)
      (EdgeGroup.toState_addSymbols symbols) rfl
  have hlt : (addGroup groups symbols state).findIdx (fun g => g.toState = state) <
      (addGroup groups symbols state).length :=
    findIdx_lt_length_of_exists ⟨g, hg, by simpa using hgs⟩
  exact ⟨_, getElem?_eq_getElem hlt, by simpa using findIdx_getElem (w := hlt)⟩

/-- **Replacing** keeps the order, and sends every edge to `old` to `new` instead. -/
theorem replaceStateGroups_spec (old new : ℕ) :
    Ascending EdgeGroup.toState (replaceStateGroups groups old new) ∧
      ∀ c t, GroupsHave (replaceStateGroups groups old new) c t ↔
        ∃ t', GroupsHave groups c t' ∧ (if t' = old then new else t') = t := by
  -- without an edge to `old` there is nothing to rename
  have hkeep : (∀ c, ¬ GroupsHave groups c old) → ∀ c t, GroupsHave groups c t ↔
      ∃ t', GroupsHave groups c t' ∧ (if t' = old then new else t') = t := by
    intro hno c t
    constructor
    · intro h
      refine ⟨t, h, if_neg ?_⟩
      rintro rfl
      exact hno c h
    · intro ⟨t', h, ht⟩
      have hne : t' ≠ old := by
        rintro rfl
        exact hno c h
      rw [if_neg hne] at ht
      exact ht ▸ h
  unfold replaceStateGroups
  split
  · rename_i hfind
    refine ⟨hs, hkeep fun c ⟨g, hg, hgt, _⟩ => ?_⟩
    have := find?_eq_none.mp hfind g hg
    simp [hgt] at this
  · rename_i cp hfind
    have hcp : cp ∈ groups := mem_of_find?_eq_some hfind
    have hto : cp.toState = old := by simpa using find?_some hfind
    have hold : ∀ c, GroupsHave groups c old ↔ cp.has c = true := by
      intro c
      constructor
      · intro ⟨g, hg, hgt, hc⟩
        rwa [← SortedArray.eq_of_key_eq ⟨groups, hs⟩ hg hcp (hgt.trans hto.symm)]
      · exact fun hc => ⟨cp, hcp, hto, hc⟩
    split
    · rename_i hlabel
      refine ⟨hs, hkeep fun c h => ?_⟩
      have hne := cp.symbols_ne_zero_iff.mpr ⟨c, (hold c).mp h⟩
      exact hne (findFirstGroupLabel_eq_none_iff.mp hlabel)
    · rename_i label hlabel
      have herase : Ascending EdgeGroup.toState (groups.erase cp) :=
        hs.sublist erase_sublist
      -- one label makes the group of `new`, which then gets all labels of `old`
      have hadd := addGroup_ascending herase (BitVec.twoPow 256 label) new
      have hpos := position_findIdx_addGroup herase (BitVec.twoPow 256 label) new
      have hasc : Ascending EdgeGroup.toState (upsertAt
          (addGroup (groups.erase cp) (BitVec.twoPow 256 label) new)
          (EdgeGroup.addSymbols cp.symbols) ⟨cp.symbols, new⟩ _) :=
        upsertAt_ascending hadd hpos (EdgeGroup.toState_addSymbols cp.symbols) rfl
      refine ⟨hasc, fun c t => (groupsHave_upsertAt hadd hpos c t).trans ?_⟩
      rw [groupsHave_addGroup herase, getLsbD_twoPow_iff, groupsHave_erase hs hcp, hto]
      constructor
      · rintro ((⟨h, hne⟩ | ⟨rfl, rfl⟩) | ⟨rfl, hc⟩)
        · exact ⟨t, h, if_neg hne⟩
        · exact ⟨old, (hold c).mpr (has_of_findFirstGroupLabel hlabel), if_pos rfl⟩
        · exact ⟨old, (hold c).mpr hc, if_pos rfl⟩
      · intro ⟨t', h, ht⟩
        by_cases heq : t' = old
        · subst heq
          rw [if_pos rfl] at ht
          exact .inr ⟨ht.symm, (hold c).mp h⟩
        · rw [if_neg heq] at ht
          subst ht
          exact .inl (.inl ⟨h, heq⟩)

end

theorem length_replaceStateGroups_le (groups : List EdgeGroup) (old new : ℕ) :
    (replaceStateGroups groups old new).length ≤ groups.length := by
  unfold replaceStateGroups
  split
  · exact le_rfl
  · rename_i cp hfind
    split
    · exact le_rfl
    · -- one group out, at most one in
      have hcp : cp ∈ groups := mem_of_find?_eq_some hfind
      have hpos := length_pos_of_mem hcp
      rename_i label _
      have hle := length_upsertAt_le (groups.erase cp)
        (EdgeGroup.addSymbols (BitVec.twoPow 256 label)) ⟨BitVec.twoPow 256 label, new⟩
        (findStatePosition (groups.erase cp) new)
      rw [length_erase_of_mem hcp] at hle
      rw [length_modify]
      exact hle.trans_eq (Nat.sub_add_cancel hpos)

theorem groupsHave_removeStateGroups (groups : List EdgeGroup) (state : ℕ) (c : Byte) (t : ℕ) :
    GroupsHave (removeStateGroups groups state) c t ↔ GroupsHave groups c t ∧ t ≠ state := by
  constructor
  · intro ⟨g, hg, hgt, hc⟩
    obtain ⟨hg, hne⟩ := mem_filter.mp hg
    exact ⟨⟨g, hg, hgt, hc⟩, by simpa [hgt] using hne⟩
  · intro ⟨⟨g, hg, hgt, hc⟩, hne⟩
    exact ⟨g, mem_filter.mpr ⟨hg, by simpa [hgt] using hne⟩, hgt, hc⟩

def edgeSetRemoveState (set : EdgeSet) (state : ℕ) : EdgeSet :=
  if edgeSetEmpty set then set
  else
    match set with
    | .null => .null
    | .array gs => .array ⟨removeStateGroups gs.entries state, gs.ascending.filter _⟩

def edgeSetReplaceState (set : EdgeSet) (old new : ℕ) : EdgeSet :=
  if edgeSetEmpty set then set
  else
    match set with
    | .null => .null
    | .array gs =>
      .array ⟨replaceStateGroups gs.entries old new,
        (replaceStateGroups_spec gs.ascending old new).1⟩

@[simp] theorem hasEdge_edgeSetRemoveState (set : EdgeSet) (state : ℕ) (c : Byte) (t : ℕ) :
    (edgeSetRemoveState set state).HasEdge c t ↔ set.HasEdge c t ∧ t ≠ state := by
  unfold edgeSetRemoveState
  split
  · rename_i h
    simp [(edgeSetEmpty_eq_true_iff set).mp h]
  · cases set with
    | null => simp
    | array gs => exact groupsHave_removeStateGroups gs.entries state c t

@[simp] theorem hasEdge_edgeSetReplaceState (set : EdgeSet) (old new : ℕ) (c : Byte) (t : ℕ) :
    (edgeSetReplaceState set old new).HasEdge c t ↔
      ∃ t', set.HasEdge c t' ∧ (if t' = old then new else t') = t := by
  unfold edgeSetReplaceState
  split
  · rename_i h
    simp [(edgeSetEmpty_eq_true_iff set).mp h]
  · cases set with
    | null => simp
    | array gs => exact (replaceStateGroups_spec gs.ascending old new).2 c t

end Libfsm
