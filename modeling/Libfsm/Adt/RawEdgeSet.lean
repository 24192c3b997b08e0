import Libfsm.Adt.EdgeSet

/-!
# Edge Sets As They Are Stored

`struct edge_set` of `adt/edgeset.c` with its capacity, and its functions step by step.  The
order of the groups is not part of the type here: it is what the functions have to keep.

- `RawEdgeSet`: NULL, or the capacity and the groups in use
- `RawEdgeSet.addBulk`, `adviseGrowth`, `copy`, `remove`, `removeState`, `compact`, `rebase`,
  `replaceState`: the functions that write
- `RawEdgeSet.Valid`: the groups ascend strictly and fit the capacity
- for each function, that it keeps `Valid` and what it does to the relation `HasEdge`

`copy` fails (`none`) where the source reads through a NULL pointer, `adviseGrowth` where the sum is
more than `size_t` has a capacity for.
-/

namespace Libfsm

open Lib
open List hiding set count nil cons

variable {ceil dg p : ℕ} {gs : List EdgeGroup} {xs : List ℕ}

/-! ## §1 Representation -/

/-- `struct edge_set *`: NULL, or `ceil` and `groups[0 .. count)`. -/
inductive RawEdgeSet where
  | null
  | array (ceil : ℕ) (groups : List EdgeGroup)
  deriving DecidableEq

variable {set : RawEdgeSet}

namespace RawEdgeSet

/-- The groups in use. -/
def groups : RawEdgeSet → List EdgeGroup
  | .null => []
  | .array _ groups => groups

@[simp] theorem groups_null : null.groups = [] := rfl
@[simp] theorem groups_array (ceil : ℕ) (gs : List EdgeGroup) : (array ceil gs).groups = gs := rfl

/-- An edge on `c` to `t`. -/
def HasEdge (set : RawEdgeSet) (c : Byte) (t : ℕ) : Prop := GroupsHave set.groups c t

/-- The groups of an allocated set ascend strictly and fit its capacity, which is not zero. -/
def Valid : RawEdgeSet → Prop
  | .null => True
  | .array ceil groups => Ascending EdgeGroup.toState groups ∧ groups.length ≤ ceil ∧ 0 < ceil

/-- A valid set as an `EdgeSet`, without the capacity. -/
def toEdgeSet (set : RawEdgeSet) (h : set.Valid) : EdgeSet :=
  match set, h with
  | .null, _ => .null
  | .array _ gs, h => .array ⟨gs, h.1⟩

theorem groups_toEdgeSet (set : RawEdgeSet) (h : set.Valid) :
    (set.toEdgeSet h).groups = set.groups := by
  cases set <;> rfl

/-- `edge_set_empty` -/
def empty (set : RawEdgeSet) : Bool := set.groups.all fun g => (findFirstGroupLabel g).isNone

theorem empty_eq_true_iff (set : RawEdgeSet) :
    set.empty = true ↔ ∀ c t, ¬ set.HasEdge c t := by
  simp only [empty, all_eq_true, Option.isNone_iff_eq_none, findFirstGroupLabel_eq_none_iff]
  constructor
  · intro h c t ⟨g, hg, _, hc⟩
    exact (g.symbols_ne_zero_iff.mpr ⟨c, hc⟩) (h g hg)
  · intro h g hg
    by_contra hne
    obtain ⟨c, hc⟩ := g.symbols_ne_zero_iff.mp hne
    exact h c g.toState ⟨g, hg, rfl, hc⟩

/-- Rewrite the groups of a set, given its capacity; a set without symbols is left alone. -/
def unlessEmpty (set : RawEdgeSet) (f : ℕ → List EdgeGroup → List EdgeGroup) : RawEdgeSet :=
  if set.empty then set
  else
    match set with
    | .null => .null
    | .array ceil gs => .array ceil (f ceil gs)

theorem unlessEmpty_cases (set : RawEdgeSet) (f : ℕ → List EdgeGroup → List EdgeGroup) :
    (set.unlessEmpty f = set ∧ ∀ c t, ¬ set.HasEdge c t) ∨
      ∃ ceil gs, set = .array ceil gs ∧ set.empty = false ∧
        set.unlessEmpty f = .array ceil (f ceil gs) := by
  unfold unlessEmpty
  split
  · rename_i h
    exact .inl ⟨rfl, set.empty_eq_true_iff.mp h⟩
  · rename_i h
    cases set with
    | null => exact absurd rfl h
    | array ceil gs => exact .inr ⟨ceil, gs, rfl, by simpa using h, rfl⟩

/-- A rewriting that takes each destination to others, as a relation `P` says. -/
theorem Valid.unlessEmpty (h : set.Valid)
    {f : ℕ → List EdgeGroup → List EdgeGroup} {P : Byte → ℕ → ℕ → Prop}
    (hf : ∀ ceil gs, (array ceil gs).Valid → gs ≠ [] →
      Ascending EdgeGroup.toState (f ceil gs) ∧ (f ceil gs).length ≤ ceil ∧
        ∀ c t, GroupsHave (f ceil gs) c t ↔ ∃ t', GroupsHave gs c t' ∧ P c t' t) :
    (set.unlessEmpty f).Valid ∧
      ∀ c t, (set.unlessEmpty f).HasEdge c t ↔ ∃ t', set.HasEdge c t' ∧ P c t' t := by
  rcases set.unlessEmpty_cases f with ⟨heq, hno⟩ | ⟨ceil, gs, rfl, hempty, heq⟩
  · rw [heq]
    exact ⟨h, by simp [hno]⟩
  · have hgs : gs ≠ [] := by
      rintro rfl
      cases hempty.symm
    obtain ⟨hasc, hlen, hhave⟩ := hf ceil gs h hgs
    rw [heq]
    exact ⟨⟨hasc, hlen, h.2.2⟩, hhave⟩

/-! ## §2 Adding -/

/-- `edge_set_add_bulk`.  NULL becomes an array of capacity `DEF_EDGE_GROUP_CEIL`, which is 1
(`init_empty`). -/
def addBulk (set : RawEdgeSet) (symbols : Symbols) (state : ℕ) : RawEdgeSet :=
  match set with
  | .null => .array 1 [⟨symbols, state⟩]
  | .array ceil groups =>
    match findStatePosition groups state with
    | (true, i) => .array ceil (groups.modify i (EdgeGroup.addSymbols symbols))
    | (false, i) =>
      -- `grow_groups`
      let ceil := if groups.length = ceil then 2 * ceil else ceil
      .array ceil (groups.take i ++ ⟨symbols, state⟩ :: groups.drop i)

/-- `edge_set_add` -/
def add (set : RawEdgeSet) (symbol : Byte) (state : ℕ) : RawEdgeSet :=
  addBulk set (BitVec.twoPow 256 symbol) state

/-- `edge_set_add_state_set` -/
def addStateSet (set : RawEdgeSet) (symbol : Byte) (states : StateSet) : RawEdgeSet :=
  states.toList.foldl (fun set state => add set symbol state) set

/-- `ceil`, or that of `init_empty` for NULL. -/
def ceilOrInit : RawEdgeSet → ℕ
  | .null => 1
  | .array ceil _ => ceil

/-- `sizeof (struct edge_group)` -/
def edgeGroupSize : ℕ := 40

/-- `edge_set_advise_growth`; NULL becomes an array first.  The arithmetic is that of `size_t`.
`none` if the loop does not end, or if the block has no room for `nceil` groups. -/
def adviseGrowth (set : RawEdgeSet) (count : ℕ) : Option RawEdgeSet :=
  let target := (set.ceilOrInit + count) % 2 ^ 64
  -- past `2 ^ 63` the next double is 0, and so are all that follow
  if 2 ^ 63 < target then none
  else
    let nceil := doubleUntil target target 1
    -- else the number of bytes wraps around
    if nceil * edgeGroupSize < 2 ^ 64 then some (.array nceil set.groups) else none

/-- The groups after adding are those of the plain insertion, and there is room for them. -/
theorem addBulk_array (hle : gs.length ≤ ceil) (hpos : 0 < ceil) (symbols : Symbols) (state : ℕ) :
    ∃ ceil', addBulk (.array ceil gs) symbols state = .array ceil' (addGroup gs symbols state) ∧
      (addGroup gs symbols state).length ≤ ceil' ∧ 0 < ceil' := by
  unfold addBulk addGroup
  dsimp only
  rcases findStatePosition gs state with ⟨_ | _, i⟩
  · refine ⟨if gs.length = ceil then 2 * ceil else ceil, rfl, ?_, ?_⟩
    · refine (length_upsertAt_le gs _ _ _).trans ?_
      split <;> omega
    · split <;> omega
  · exact ⟨ceil, rfl, by simpa [upsertAt] using hle, hpos⟩

theorem Valid.addBulk (h : set.Valid) (symbols : Symbols) (state : ℕ) :
    (set.addBulk symbols state).Valid := by
  cases set with
  | null => exact ⟨pairwise_singleton _ _, le_rfl, Nat.one_pos⟩
  | array ceil gs =>
    obtain ⟨ceil', heq, hroom⟩ := addBulk_array h.2.1 h.2.2 symbols state
    rw [heq]
    exact ⟨addGroup_ascending h.1 symbols state, hroom⟩

theorem Valid.hasEdge_addBulk (h : set.Valid) (symbols : Symbols) (state : ℕ) (c : Byte) (t : ℕ) :
    (set.addBulk symbols state).HasEdge c t ↔
      set.HasEdge c t ∨ (t = state ∧ symbols.getLsbD c = true) := by
  cases set with
  | null => exact hasEdge_edgeSetAddBulk .null symbols state c t
  | array ceil gs =>
    obtain ⟨ceil', heq, -⟩ := addBulk_array h.2.1 h.2.2 symbols state
    rw [heq]
    exact groupsHave_addGroup h.1 symbols state c t

theorem Valid.add (h : set.Valid) (symbol : Byte) (state : ℕ) : (set.add symbol state).Valid :=
  h.addBulk _ state

theorem Valid.hasEdge_add (h : set.Valid) (symbol : Byte) (state : ℕ) (c : Byte) (t : ℕ) :
    (set.add symbol state).HasEdge c t ↔ set.HasEdge c t ∨ (t = state ∧ c = symbol) := by
  rw [RawEdgeSet.add, h.hasEdge_addBulk, getLsbD_twoPow_iff]

theorem Valid.addStateSet (h : set.Valid) (symbol : Byte) (states : StateSet) :
    (set.addStateSet symbol states).Valid ∧
      ∀ c t, (set.addStateSet symbol states).HasEdge c t ↔
        set.HasEdge c t ∨ (c = symbol ∧ t ∈ states) := by
  unfold RawEdgeSet.addStateSet
  simp only [mem_stateSet]
  induction states.toList generalizing set with
  | nil => exact ⟨h, by simp⟩
  | cons s l ih =>
    obtain ⟨hvalid, hhas⟩ := ih (h.add symbol s)
    refine ⟨hvalid, fun c t => ?_⟩
    rw [foldl_cons, hhas, h.hasEdge_add, mem_cons]
    tauto

theorem groups_of_adviseGrowth {set' : RawEdgeSet} {count : ℕ}
    (h : set.adviseGrowth count = some set') : set'.groups = set.groups := by
  unfold adviseGrowth at h
  dsimp only at h
  split at h
  · cases h
  · split at h
    · cases h
      rfl
    · cases h

/-- Advice is taken exactly if the sum, as `size_t` has it, is at most `2 ^ 58` and no power of two
separates it from the number of groups that are there. -/
theorem Valid.adviseGrowth_iff (h : set.Valid) (count : ℕ) :
    (∃ set', set.adviseGrowth count = some set' ∧ set'.Valid) ↔
      (set.ceilOrInit + count) % 2 ^ 64 ≤ 2 ^ 58 ∧
        ∀ k, (set.ceilOrInit + count) % 2 ^ 64 ≤ 2 ^ k → set.groups.length ≤ 2 ^ k := by
  have hasc : Ascending EdgeGroup.toState set.groups := by
    cases set with
    | null => exact List.Pairwise.nil
    | array ceil gs => exact h.1
  unfold RawEdgeSet.adviseGrowth edgeGroupSize
  set target := (set.ceilOrInit + count) % 2 ^ 64
  obtain ⟨k, hk⟩ := exists_doubleUntil_eq_two_pow target target 0
  have htarget : target ≤ 2 ^ k := hk ▸ le_doubleUntil Nat.one_pos (Nat.le_add_left _ _)
  have hleast : ∀ j, target ≤ 2 ^ j → 2 ^ k ≤ 2 ^ j := fun j hj =>
    hk ▸ doubleUntil_le_two_pow target (Nat.zero_le j) hj
  -- `nceil` is the least power of two that is not below the sum
  have hbytes : 2 ^ k * 40 < 2 ^ 64 ↔ target ≤ 2 ^ 58 := by
    constructor
    · intro hlt
      have : k < 59 := by
        by_contra hge
        have : 2 ^ 59 ≤ 2 ^ k := Nat.pow_le_pow_right Nat.two_pos (by omega)
        omega
      exact htarget.trans (Nat.pow_le_pow_right Nat.two_pos (by omega))
    · intro hle
      have := hleast 58 hle
      omega
  have hroom : set.groups.length ≤ 2 ^ k ↔ ∀ j, target ≤ 2 ^ j → set.groups.length ≤ 2 ^ j :=
    ⟨fun hle j hj => hle.trans (hleast j hj), fun hall => hall k htarget⟩
  rw [pow_zero] at hk
  simp only [hk]
  rw [← hbytes, ← hroom]
  by_cases hlt : 2 ^ k * 40 < 2 ^ 64
  -- the test against half of `SIZE_MAX` fires only where the size overflows too
  · have hnot : ¬ 2 ^ 63 < target := by
      have := hbytes.mp hlt
      omega
    rw [if_neg hnot, if_pos hlt]
    constructor
    · intro ⟨set', heq, hvalid⟩
      cases heq
      exact ⟨hlt, hvalid.2.1⟩
    · exact fun ⟨_, hle⟩ => ⟨_, rfl, hasc, hle, Nat.two_pow_pos k⟩
  · rw [if_neg hlt, ite_self]
    exact iff_of_false (by simp) fun hand => hlt hand.1

/-! ## §3 Copying -/

/-- Rewrite one group. -/
def modifyGroup (set : RawEdgeSet) (i : ℕ) (f : EdgeGroup → EdgeGroup) : RawEdgeSet :=
  match set with
  | .null => .null
  | .array ceil groups => .array ceil (groups.modify i f)

/-- The last part of the loop body of `edge_set_copy_into`: go past a group for a lower
destination, or unite the labels.  The flag says that the source group is done. -/
def copyIntoUnite (dst : RawEdgeSet) (dg : ℕ) (sg : EdgeGroup) : RawEdgeSet × ℕ × Bool :=
  if (dst.groups[dg]?).any fun g => g.toState < sg.toState then (dst, dg + 1, false)
  else (dst.modifyGroup dg (EdgeGroup.addSymbols sg.symbols), dg + 1, true)

/-- The loop body of `edge_set_copy_into`, for the source group `sg` and the destination group
at `dg`. -/
def copyIntoStep (dst : RawEdgeSet) (dg : ℕ) (sg : EdgeGroup) : RawEdgeSet × ℕ × Bool :=
  if (dst.groups[dg]?).all fun g => sg.toState < g.toState then
    match findFirstGroupLabel sg with
    -- an empty source group is skipped
    | none => (dst, dg, true)
    -- the group is made with one label, at the current offset
    | some label => copyIntoUnite (dst.add label sg.toState) dg sg
  else copyIntoUnite dst dg sg

/-- The loop of `edge_set_copy_into` over the source groups that are left. -/
def copyIntoLoop : ℕ → RawEdgeSet → ℕ → List EdgeGroup → RawEdgeSet
  | _, dst, _, [] => dst
  | 0, dst, _, _ :: _ => dst
  | fuel + 1, dst, dg, sg :: sgs =>
    let (dst, dg, done) := copyIntoStep dst dg sg
    copyIntoLoop fuel dst dg (if done then sgs else sg :: sgs)

/-- `edge_set_copy_into`.  Each turn of the loop goes past a group of one of the two sets. -/
def copyInto (dst src : RawEdgeSet) : RawEdgeSet :=
  copyIntoLoop (dst.groups.length + src.groups.length) dst 0 src.groups

/-- `edge_set_copy`; `none` if it reads `src->count` of a NULL pointer. -/
def copy (dst src : RawEdgeSet) : Option RawEdgeSet :=
  match dst with
  | .null => some (if src.empty then .null else src)
  | dst =>
    match src with
    | .null => none
    | src => some (copyInto dst src)

/-- What one turn of the loop does. -/
structure CopiedStep (gs : List EdgeGroup) (dg : ℕ) (sg : EdgeGroup) (ceil' : ℕ)
    (gs' : List EdgeGroup) (dg' : ℕ) (done : Bool) : Prop where
  valid : (array ceil' gs').Valid
  le : dg' ≤ gs'.length
  have_iff : ∀ c t, GroupsHave gs' c t ↔
    GroupsHave gs c t ∨ (done = true ∧ t = sg.toState ∧ sg.has c = true)
  /-- The groups passed so far lie below the source groups that are left -/
  passed : ∀ g ∈ gs'.take dg', g.toState ≤ sg.toState ∧ (done = false → g.toState < sg.toState)
  /-- There is less to go through -/
  remaining : (gs'.length - dg') + (if done then 0 else 1) ≤ gs.length - dg

/-- Labels united into the group for their destination, at the current offset. -/
theorem copyIntoUnite_of_eq (h : (array ceil gs).Valid) {sg g : EdgeGroup} (hg : gs[dg]? = some g)
    (hto : g.toState = sg.toState) :
    ∃ gs', copyIntoUnite (.array ceil gs) dg sg = (.array ceil gs', dg + 1, true) ∧
      gs'.length = gs.length ∧ CopiedStep gs dg sg ceil gs' (dg + 1) true := by
  have hpos : Position EdgeGroup.toState gs sg.toState (true, dg) := ⟨g, hg, hto⟩
  have hasc : Ascending EdgeGroup.toState (upsertAt gs (EdgeGroup.addSymbols sg.symbols)
      ⟨sg.symbols, sg.toState⟩ (true, dg)) :=
    upsertAt_ascending h.1 hpos (EdgeGroup.toState_addSymbols sg.symbols) rfl
  have hlt : dg < gs.length := (List.getElem?_eq_some_iff.mp hg).1
  have hlen : (gs.modify dg (EdgeGroup.addSymbols sg.symbols)).length = gs.length := by simp
  have hget : (gs.modify dg (EdgeGroup.addSymbols sg.symbols))[dg]? =
      some (g.addSymbols sg.symbols) := by simp [hg]
  refine ⟨gs.modify dg (EdgeGroup.addSymbols sg.symbols), ?_, hlen,
    ⟨hasc, hlen.trans_le h.2.1, h.2.2⟩, by omega, fun c t => ?_, fun g' hg' => ⟨?_, nofun⟩,
    by simp only [if_true]; omega⟩
  · simp [copyIntoUnite, hg, hto, modifyGroup]
  · refine (groupsHave_upsertAt h.1 hpos c t).trans ?_
    simp [EdgeGroup.has]
  · exact (key_le_of_mem_take hasc hget hg').trans_eq hto

/-- A place that splits the groups is where a new group goes. -/
theorem addGroup_of_splits (hs : Ascending EdgeGroup.toState gs) {state : ℕ}
    (hsplit : Splits EdgeGroup.toState gs state dg) (symbols : Symbols) :
    addGroup gs symbols state = gs.take dg ++ ⟨symbols, state⟩ :: gs.drop dg := by
  have hpos := findStatePosition_position hs state
  unfold addGroup
  rcases hfind : findStatePosition gs state with ⟨_ | _, i⟩
  · rw [hfind] at hpos
    show gs.take i ++ _ :: gs.drop i = _
    rw [hpos.take_eq, hpos.drop_eq, hsplit.take_eq, hsplit.drop_eq]
  · -- the destination would be there already
    rw [hfind] at hpos
    obtain ⟨x, hx, hk⟩ := hpos
    exact absurd hk (hsplit.key_ne (mem_of_getElem? hx))

/-- **One turn** of the loop of `edge_set_copy_into`. -/
theorem copyIntoStep_spec (h : (array ceil gs).Valid) (hdg : dg ≤ gs.length) {sg : EdgeGroup}
    (hpassed : ∀ g ∈ gs.take dg, g.toState < sg.toState) :
    ∃ ceil' gs' dg' done, copyIntoStep (.array ceil gs) dg sg = (.array ceil' gs', dg', done) ∧
      CopiedStep gs dg sg ceil' gs' dg' done := by
  unfold copyIntoStep
  split
  · rename_i habsent
    rw [groups_array] at habsent
    -- no group leads there yet: the new one belongs at the cursor
    have hsplit : Splits EdgeGroup.toState gs sg.toState dg := by
      refine ⟨hpassed, fun x hx => ?_⟩
      obtain ⟨j, hj, rfl⟩ := mem_drop_iff_getElem.mp hx
      have hlt : dg < gs.length := by omega
      rw [getElem?_eq_getElem hlt, Option.all_some, decide_eq_true_eq] at habsent
      rcases Nat.eq_zero_or_pos j with rfl | hj0
      · exact habsent
      · exact habsent.trans (pairwise_iff_getElem.mp h.1 dg (dg + j) hlt (by omega) (by omega))
    split
    · rename_i hlabel
      have hzero := findFirstGroupLabel_eq_none_iff.mp hlabel
      refine ⟨ceil, gs, dg, true, rfl, h, hdg, fun c t => ?_,
        fun g hg => ⟨(hpassed g hg).le, nofun⟩, by simp⟩
      simp [EdgeGroup.has, hzero]
    · rename_i label hlabel
      obtain ⟨ceil₁, hadd, hroom⟩ := addBulk_array h.2.1 h.2.2 (BitVec.twoPow 256 label)
        sg.toState
      have hgs := addGroup_of_splits h.1 hsplit (BitVec.twoPow 256 label)
      have hget : (addGroup gs (BitVec.twoPow 256 label) sg.toState)[dg]? =
          some ⟨BitVec.twoPow 256 label, sg.toState⟩ := by
        rw [hgs, getElem?_append_right (by simp), length_take, Nat.min_eq_left hdg, Nat.sub_self]
        rfl
      have hto : (⟨BitVec.twoPow 256 label, sg.toState⟩ : EdgeGroup).toState = sg.toState := rfl
      obtain ⟨gs', heq, hlen', hstep⟩ := copyIntoUnite_of_eq
        ⟨addGroup_ascending h.1 _ _, hroom⟩ hget hto
      refine ⟨ceil₁, gs', dg + 1, true, ?_, hstep.valid, hstep.le, fun c t => ?_, hstep.passed, ?_⟩
      · rw [add, hadd, heq]
      · rw [hstep.have_iff, groupsHave_addGroup h.1, getLsbD_twoPow_iff]
        have hlabel := has_of_findFirstGroupLabel hlabel
        constructor
        · rintro ((hc | ⟨ht, rfl⟩) | hc)
          · exact .inl hc
          · exact .inr ⟨rfl, ht, hlabel⟩
          · exact .inr hc
        · rintro (hc | hc)
          · exact .inl (.inl hc)
          · exact .inr hc
      · have hlen : (addGroup gs (BitVec.twoPow 256 label) sg.toState).length = gs.length + 1 := by
          rw [hgs, length_append, length_cons, ← add_assoc, ← length_append, take_append_drop]
        simp only [if_true]
        omega
  · rename_i hpresent
    obtain ⟨g, hg, hge⟩ : ∃ g, gs[dg]? = some g ∧ g.toState ≤ sg.toState := by
      cases hg : gs[dg]? with
      | none => simp [hg] at hpresent
      | some g => exact ⟨g, rfl, by simpa [hg] using hpresent⟩
    have hlt : dg < gs.length := (List.getElem?_eq_some_iff.mp hg).1
    rcases Nat.lt_or_eq_of_le hge with hless | heq
    · -- the destination's groups have not caught up yet
      have hpassed' : ∀ g' ∈ gs.take (dg + 1), g'.toState < sg.toState :=
        fun g' hg' => (key_le_of_mem_take h.1 hg hg').trans_lt hless
      refine ⟨ceil, gs, dg + 1, false, ?_, h, hlt, fun c t => by simp,
        fun g' hg' => ⟨(hpassed' g' hg').le, fun _ => hpassed' g' hg'⟩, ?_⟩
      · simp [copyIntoUnite, hg, hless]
      · simp only [Bool.false_eq_true, if_false]
        omega
    · obtain ⟨gs', hunite, -, hstep⟩ := copyIntoUnite_of_eq h hg heq
      exact ⟨ceil, gs', dg + 1, true, hunite, hstep⟩

/-- The whole loop adds the source groups that are left. -/
theorem copyIntoLoop_spec {fuel : ℕ} (h : (array ceil gs).Valid) (hdg : dg ≤ gs.length)
    {sgs : List EdgeGroup} (hs : Ascending EdgeGroup.toState sgs)
    (hpassed : ∀ g ∈ gs.take dg, ∀ sg ∈ sgs, g.toState < sg.toState)
    (hfuel : (gs.length - dg) + sgs.length ≤ fuel) :
    (copyIntoLoop fuel (.array ceil gs) dg sgs).Valid ∧
      ∀ c t, (copyIntoLoop fuel (.array ceil gs) dg sgs).HasEdge c t ↔
        GroupsHave gs c t ∨ GroupsHave sgs c t := by
  induction fuel generalizing ceil gs dg sgs with
  | zero =>
    obtain rfl : sgs = [] := length_eq_zero_iff.mp (by omega)
    exact ⟨h, by simp [copyIntoLoop, GroupsHave, HasEdge]⟩
  | succ fuel ih =>
    cases sgs with
    | nil => exact ⟨h, by simp [copyIntoLoop, GroupsHave, HasEdge]⟩
    | cons sg sgs =>
      obtain ⟨hlow, hs'⟩ := pairwise_cons.mp hs
      obtain ⟨ceil', gs', dg', done, heq, hstep⟩ := copyIntoStep_spec h hdg
        (fun g hg => hpassed g hg sg mem_cons_self)
      have hrest := hstep.remaining
      rw [length_cons] at hfuel
      simp only [copyIntoLoop, heq]
      -- each turn uses up a source group or moves the cursor on
      cases done with
      | true =>
        obtain ⟨hvalid, hhas⟩ := ih hstep.valid hstep.le hs'
          (fun g hg sg' hsg' => (hstep.passed g hg).1.trans_lt (hlow sg' hsg'))
          (by omega)
        refine ⟨hvalid, fun c t => (hhas c t).trans ?_⟩
        rw [hstep.have_iff]
        simp only [true_and, GroupsHave, mem_cons, exists_eq_or_imp, or_assoc]
        rw [eq_comm (a := t)]
      | false =>
        obtain ⟨hvalid, hhas⟩ := ih hstep.valid hstep.le hs
          (fun g hg sg' hsg' => by
            rcases mem_cons.mp hsg' with rfl | hsg'
            · exact (hstep.passed g hg).2 rfl
            · exact (hstep.passed g hg).1.trans_lt (hlow sg' hsg'))
          (by simp only [Bool.false_eq_true, if_false] at hrest; rw [length_cons]; omega)
        refine ⟨hvalid, fun c t => (hhas c t).trans ?_⟩
        rw [hstep.have_iff]
        simp

/-- **Copying**: it fails exactly for a NULL source and an allocated destination, and else
yields the union. -/
theorem copy_spec {dst src : RawEdgeSet} (hdst : dst.Valid) (hsrc : src.Valid) :
    (copy dst src = none ∧ dst ≠ .null ∧ src = .null) ∨
      ∃ set, copy dst src = some set ∧ (dst = .null ∨ src ≠ .null) ∧ set.Valid ∧
        ∀ c t, set.HasEdge c t ↔ dst.HasEdge c t ∨ src.HasEdge c t := by
  cases dst with
  | null =>
    refine .inr ⟨_, rfl, .inl rfl, ?_, fun c t => ?_⟩
    · split
      · exact trivial
      · exact hsrc
    · split
      · rename_i hempty
        have hno := src.empty_eq_true_iff.mp hempty c t
        exact ⟨fun h => .inl h, fun h => h.resolve_right hno⟩
      · simp [HasEdge, GroupsHave]
  | array ceil gs =>
    cases src with
    | null => exact .inl ⟨rfl, nofun, rfl⟩
    | array ceil' sgs =>
      have hfuel : (gs.length - 0) + sgs.length ≤ gs.length + sgs.length := by omega
      obtain ⟨hvalid, hhas⟩ := copyIntoLoop_spec hdst (Nat.zero_le gs.length) hsrc.1 (by simp) hfuel
      exact .inr ⟨_, rfl, .inr nofun, hvalid, hhas⟩

/-! ## §4 Removing, Replacing, Rebasing -/

/-- `edge_set_remove` -/
def remove (set : RawEdgeSet) (symbol : Byte) : RawEdgeSet :=
  set.unlessEmpty fun _ gs => gs.map (EdgeGroup.clearSymbol symbol)

/-- The loop of `edge_set_remove_state`, with the groups below `i` and those from `i` on. -/
def removeStateLoop (state : ℕ) : List EdgeGroup → List EdgeGroup → List EdgeGroup
  | kept, [] => kept
  | kept, g :: gs =>
    -- at a group for `state` the rest moves down by one and `i` stays
    if g.toState = state then removeStateLoop state kept gs
    else removeStateLoop state (kept ++ [g]) gs

/-- `edge_set_remove_state` -/
def removeState (set : RawEdgeSet) (state : ℕ) : RawEdgeSet :=
  set.unlessEmpty fun _ gs => removeStateLoop state [] gs

/-- The outer loop of `edge_set_replace_state`, with the groups below `i` and those from `i` on. -/
def replaceStateLoop (ceil old new : ℕ) : List EdgeGroup → List EdgeGroup → List EdgeGroup
  | kept, [] => kept
  | kept, g :: gs =>
    if g.toState = old then
      match findFirstGroupLabel g with
      | none => kept ++ g :: gs
      | some label =>
        let groups := ((array ceil (kept ++ gs)).add label new).groups
        -- the inner loop looks for the group that `edge_set_add` made or found
        groups.modify (groups.findIdx fun g => g.toState = new) (EdgeGroup.addSymbols g.symbols)
    else replaceStateLoop ceil old new (kept ++ [g]) gs

/-- `edge_set_replace_state`.  A group is taken out before one is put in, so the array does not
grow. -/
def replaceState (set : RawEdgeSet) (old new : ℕ) : RawEdgeSet :=
  set.unlessEmpty fun ceil gs => replaceStateLoop ceil old new [] gs

theorem removeStateLoop_eq (state : ℕ) (kept gs : List EdgeGroup) :
    removeStateLoop state kept gs = kept ++ removeStateGroups gs state := by
  induction gs generalizing kept with
  | nil => simp [removeStateLoop, removeStateGroups]
  | cons g gs ih =>
    unfold removeStateLoop
    split
    · rename_i hg
      simp [ih, removeStateGroups, hg]
    · rename_i hg
      simp [ih, removeStateGroups, hg]

/-- The loop stops at the group that a search for `old` finds. -/
theorem replaceStateLoop_eq {kept : List EdgeGroup} (old new : ℕ)
    (hlen : (kept ++ gs).length ≤ ceil) (hpos : 0 < ceil) (hkept : ∀ g ∈ kept, g.toState ≠ old) :
    replaceStateLoop ceil old new kept gs = replaceStateGroups (kept ++ gs) old new := by
  have hnone : kept.find? (fun g => g.toState = old) = none := by simpa using hkept
  induction gs generalizing kept with
  | nil => simp [replaceStateLoop, replaceStateGroups, hnone]
  | cons g gs ih =>
    unfold replaceStateLoop
    split
    · rename_i hg
      have hfind : (kept ++ g :: gs).find? (fun g => g.toState = old) = some g := by
        simp [find?_append, hnone, hg]
      have herase : (kept ++ g :: gs).erase g = kept ++ gs := by
        rw [erase_append_right _ fun hmem => hkept g hmem hg, erase_cons_head]
      rw [length_append, length_cons] at hlen
      have hroom : (kept ++ gs).length ≤ ceil := by
        rw [length_append]
        omega
      simp only [replaceStateGroups, hfind, herase]
      cases findFirstGroupLabel g with
      | none => rfl
      | some label =>
        obtain ⟨ceil', heq, -⟩ := addBulk_array hroom hpos (BitVec.twoPow 256 label) new
        dsimp only
        rw [RawEdgeSet.add, heq, groups_array]
    · rename_i hg
      have hkept' : ∀ g' ∈ kept ++ [g], g'.toState ≠ old := by
        simpa [or_imp, forall_and, hg] using hkept
      rw [ih (by simpa using hlen) hkept' (by simp [hnone, hg]), append_assoc, singleton_append]

/-- `eg->to += base`, in the arithmetic of `fsm_state_t` -/
def rebaseState (base state : ℕ) : ℕ := (state + base) % 2 ^ 32

/-- `edge_set_rebase` -/
def rebase (set : RawEdgeSet) (base : ℕ) : RawEdgeSet :=
  set.unlessEmpty fun _ gs => gs.map fun g => { g with toState := rebaseState base g.toState }

theorem Valid.remove (h : set.Valid) (symbol : Byte) :
    (set.remove symbol).Valid ∧
      ∀ c t, (set.remove symbol).HasEdge c t ↔ ∃ t', set.HasEdge c t' ∧ t' = t ∧ c ≠ symbol := by
  apply h.unlessEmpty
  intro ceil gs hgs _
  refine ⟨pairwise_map.mpr hgs.1, by simpa using hgs.2.1, fun c t => ?_⟩
  constructor
  · intro ⟨g', hg', ht, hc⟩
    obtain ⟨g, hg, rfl⟩ := mem_map.mp hg'
    obtain ⟨hc, hne⟩ := (g.has_clearSymbol symbol c).mp hc
    exact ⟨t, ⟨g, hg, ht, hc⟩, rfl, hne⟩
  · intro ⟨_, ⟨g, hg, ht, hc⟩, rfl, hne⟩
    exact ⟨g.clearSymbol symbol, mem_map_of_mem hg, ht,
      (g.has_clearSymbol symbol c).mpr ⟨hc, hne⟩⟩

theorem Valid.removeState (h : set.Valid) (state : ℕ) :
    (set.removeState state).Valid ∧
      ∀ c t, (set.removeState state).HasEdge c t ↔
        ∃ t', set.HasEdge c t' ∧ t' = t ∧ t ≠ state := by
  apply h.unlessEmpty
  intro ceil gs hgs _
  rw [removeStateLoop_eq, nil_append]
  refine ⟨List.Pairwise.filter _ hgs.1, (length_filter_le _ _).trans hgs.2.1, fun c t => ?_⟩
  rw [groupsHave_removeStateGroups]
  simp

theorem Valid.replaceState (h : set.Valid) (old new : ℕ) :
    (set.replaceState old new).Valid ∧
      ∀ c t, (set.replaceState old new).HasEdge c t ↔
        ∃ t', set.HasEdge c t' ∧ (if t' = old then new else t') = t := by
  apply h.unlessEmpty
  intro ceil gs hgs _
  obtain ⟨hasc, hhave⟩ := replaceStateGroups_spec hgs.1 old new
  rw [replaceStateLoop_eq old new hgs.2.1 hgs.2.2 (by simp), nil_append]
  exact ⟨hasc, (length_replaceStateGroups_le gs old new).trans hgs.2.1, hhave⟩

/-- Rebasing means the shifted edges whatever happens to the order. -/
theorem hasEdge_rebase (set : RawEdgeSet) (base : ℕ) (c : Byte) (t : ℕ) :
    (set.rebase base).HasEdge c t ↔ ∃ t', set.HasEdge c t' ∧ rebaseState base t' = t := by
  rcases set.unlessEmpty_cases (fun _ gs => gs.map fun g =>
    { g with toState := rebaseState base g.toState }) with ⟨heq, hno⟩ | ⟨ceil, gs, rfl, -, heq⟩
  · rw [rebase, heq]
    simp [hno]
  · rw [rebase, heq]
    constructor
    · intro ⟨g', hg', ht, hc⟩
      obtain ⟨g, hg, rfl⟩ := mem_map.mp hg'
      exact ⟨g.toState, ⟨g, hg, rfl, hc⟩, ht⟩
    · intro ⟨_, ⟨g, hg, rfl, hc⟩, ht⟩
      exact ⟨_, mem_map_of_mem hg, ht, hc⟩

/-- Rebasing keeps the order if the set has no symbols, or if the new destinations ascend. -/
theorem Valid.rebase_iff (h : set.Valid) (base : ℕ) :
    (set.rebase base).Valid ↔ set.empty = true ∨
      Ascending (fun g => rebaseState base g.toState) set.groups := by
  rcases set.unlessEmpty_cases (fun _ gs => gs.map fun g =>
    { g with toState := rebaseState base g.toState }) with ⟨heq, hno⟩ | ⟨ceil, gs, rfl, he, heq⟩
  · rw [rebase, heq]
    exact iff_of_true h (.inl (set.empty_eq_true_iff.mpr hno))
  · rw [rebase, heq, he]
    constructor
    · intro ⟨hasc, _⟩
      have hasc := pairwise_map.mp hasc
      exact .inr hasc
    · intro hor
      have hasc := hor.resolve_left Bool.false_ne_true
      exact ⟨pairwise_map.mpr hasc, by simpa using h.2.1, h.2.2⟩

/-! ## §5 Compacting

`edge_set_compact` sorts a table of old and new destinations by the new ones, numbers the
distinct new destinations in that order, sorts the table back, and then collects each group into
the new group with its number. -/

/-- `struct to_info`; `newTo` is absent for `FSM_STATE_REMAP_NO_STATE`, and `assignment` until
it is assigned. -/
structure ToInfo where
  oldTo : ℕ
  newTo : Option ℕ
  assignment : Option ℕ := none
  deriving DecidableEq

/-- `collate_info_by_new_to`: `FSM_STATE_REMAP_NO_STATE` is the largest number. -/
def ToInfo.newLe (a b : ToInfo) : Prop := ∀ t, b.newTo = some t → ∃ s ≤ t, a.newTo = some s

instance : DecidableRel ToInfo.newLe := fun a b =>
  match hb : b.newTo with
  | none => isTrue (by simp [ToInfo.newLe, hb])
  | some t =>
    match ha : a.newTo with
    | none => isFalse (by simp [ToInfo.newLe, hb, ha])
    | some s => decidable_of_iff (s ≤ t) (by simp [ToInfo.newLe, hb, ha])

/-- `collate_info_by_old_to` -/
def ToInfo.oldLe (a b : ToInfo) : Prop := a.oldTo ≤ b.oldTo

instance : DecidableRel ToInfo.oldLe := fun a b => inferInstanceAs (Decidable (a.oldTo ≤ b.oldTo))

/-- The loop that numbers the entries after the first, with the number of new destinations
met. -/
def assignRest (prevNewTo : Option ℕ) (prevAssignment : ℕ) : List ToInfo → List ToInfo × ℕ
  | [] => ([], 0)
  | e :: es =>
    match e.newTo with
    | none => (e :: es, 0)
    | some t =>
      if prevNewTo = some t then
        let (es, n) := assignRest (some t) prevAssignment es
        ({ e with assignment := some prevAssignment } :: es, n)
      else
        let (es, n) := assignRest (some t) (prevAssignment + 1) es
        ({ e with assignment := some (prevAssignment + 1) } :: es, n + 1)

/-- The numbering, and `ncount`. -/
def assignInfo : List ToInfo → List ToInfo × ℕ
  | [] => ([], 0)
  | e :: es =>
    let (es, n) := assignRest e.newTo 0 es
    ({ e with assignment := some 0 } :: es, n + 1)

/-- The second pass: collect a group into the new group with its number. -/
def condense (ngroups : List EdgeGroup) (e : ToInfo × EdgeGroup) : List EdgeGroup :=
  match e.1.newTo, e.1.assignment with
  | some t, some k => ngroups.modify k fun g => ⟨g.symbols ||| e.2.symbols, t⟩
  | _, _ => ngroups

/-- The body of `edge_set_compact` for a set with symbols. -/
def compactGroups (remap : ℕ → Option ℕ) (ceil : ℕ) (gs : List EdgeGroup) : List EdgeGroup :=
  let info := gs.map fun g => ({ oldTo := g.toState, newTo := remap g.toState } : ToInfo)
  let (info, ncount) := assignInfo (info.insertionSort ToInfo.newLe)
  let info := info.insertionSort ToInfo.oldLe
  ((info.zip gs).foldl condense (replicate ceil ⟨0, 0⟩)).take ncount

/-- `edge_set_compact` -/
def compact (set : RawEdgeSet) (remap : ℕ → Option ℕ) : RawEdgeSet :=
  set.unlessEmpty (compactGroups remap)

instance : Std.Total ToInfo.newLe := ⟨by
  intro a b
  cases ha : a.newTo with
  | none => exact .inr fun t ht => absurd ht (by simp [ha])
  | some s =>
    cases hb : b.newTo with
    | none => exact .inl fun t ht => absurd ht (by simp [hb])
    | some t =>
      rcases Nat.le_total s t with hle | hle
      · exact .inl fun t' ht' => ⟨s, by simp_all, ha⟩
      · exact .inr fun s' hs' => ⟨t, by simp_all, hb⟩⟩

instance : IsTrans ToInfo ToInfo.newLe := ⟨by
  intro a b c hab hbc t ht
  obtain ⟨s, hst, hs⟩ := hbc t ht
  obtain ⟨r, hrs, hr⟩ := hab s hs
  exact ⟨r, hrs.trans hst, hr⟩⟩

instance : Std.Total ToInfo.oldLe := ⟨fun a b => Nat.le_total a.oldTo b.oldTo⟩

instance : IsTrans ToInfo ToInfo.oldLe := ⟨fun _ _ _ hab hbc => le_trans hab hbc⟩

/-- An entry with its number: the place of its new destination among all of them. -/
def ToInfo.number (targets : List ℕ) (k : ℕ) (e : ToInfo) : ToInfo :=
  match e.newTo with
  | none => e
  | some t => { e with assignment := some (k + targets.idxOf t) }

/-- Lists in strictly ascending order with the same members are the same. -/
theorem sortDedup_eq_of_mem_iff {ys : List ℕ} (hys : ys.Pairwise (· < ·))
    (h : ∀ x, x ∈ xs ↔ x ∈ ys) : sortDedup xs = ys :=
  List.Pairwise.eq_of_mem_iff (sortDedup_pairwise_lt xs) hys fun x => mem_sortDedup.trans (h x)

theorem sortDedup_cons_of_lt (h : ∀ x ∈ xs, p < x) : sortDedup (p :: xs) = p :: sortDedup xs := by
  apply sortDedup_eq_of_mem_iff
  · exact pairwise_cons.mpr ⟨fun x hx => h x (mem_sortDedup.mp hx), sortDedup_pairwise_lt xs⟩
  · simp

theorem sortDedup_cons_self (xs : List ℕ) : sortDedup (p :: p :: xs) = sortDedup (p :: xs) :=
  sortDedup_eq_of_mem_iff (sortDedup_pairwise_lt _) (by simp)

/-- The least member comes first. -/
theorem idxOf_sortDedup_cons (h : ∀ x ∈ xs, p ≤ x) : (sortDedup (p :: xs)).idxOf p = 0 := by
  have heq : sortDedup (p :: xs) = p :: sortDedup (xs.filter (p < ·)) := by
    apply sortDedup_eq_of_mem_iff
    · refine pairwise_cons.mpr ⟨fun x hx => ?_, sortDedup_pairwise_lt _⟩
      simpa using (mem_filter.mp (mem_sortDedup.mp hx)).2
    · intro x
      simp only [mem_cons, mem_sortDedup, mem_filter, decide_eq_true_eq]
      constructor
      · rintro (rfl | hx)
        · exact .inl rfl
        · rcases Nat.eq_or_lt_of_le (h x hx) with rfl | hlt
          · exact .inl rfl
          · exact .inr ⟨hx, hlt⟩
      · rintro (rfl | ⟨hx, _⟩)
        · exact .inl rfl
        · exact .inr hx
  rw [heq, idxOf_cons_self]

/-- **Numbering**: in a table sorted by new destinations, the entries after the first get the
place of their new destination among those from the first one on. -/
theorem assignRest_eq {es : List ToInfo} (k : ℕ)
    (hfirst : ∀ e ∈ es, ∀ t, e.newTo = some t → p ≤ t) (hsorted : es.Pairwise ToInfo.newLe) :
    assignRest (some p) k es =
      (es.map (ToInfo.number (sortDedup (p :: es.filterMap ToInfo.newTo)) k),
        (sortDedup (p :: es.filterMap ToInfo.newTo)).length - 1) := by
  induction es generalizing p k with
  | nil =>
    have hone : sortDedup [p] = [p] := sortDedup_cons_of_lt (by simp)
    simp [assignRest, hone]
  | cons e es ih =>
    obtain ⟨hlow, hsorted'⟩ := pairwise_cons.mp hsorted
    cases hnew : e.newTo with
    | none =>
      -- the dropped entries come last
      have hnone : ∀ e' ∈ e :: es, e'.newTo = none := by
        intro e' he'
        rcases mem_cons.mp he' with rfl | he'
        · exact hnew
        · cases h : e'.newTo with
          | none => rfl
          | some t =>
            obtain ⟨s, -, hs⟩ := hlow e' he' t h
            rw [hnew] at hs
            cases hs
      have hnil : (e :: es).filterMap ToInfo.newTo = [] :=
        filterMap_eq_nil_iff.mpr hnone
      have hone : sortDedup [p] = [p] := sortDedup_cons_of_lt (by simp)
      have hmap : (e :: es).map (ToInfo.number [p] k) = e :: es := by
        refine (map_congr_left fun e' he' => ?_).trans (map_id _)
        simp [ToInfo.number, hnone e' he']
      simp only [assignRest, hnew, hnil, hone, hmap, length_singleton]
    | some t =>
      have hpt : p ≤ t := hfirst e mem_cons_self t hnew
      have hlow' : ∀ e' ∈ es, ∀ u, e'.newTo = some u → t ≤ u := by
        intro e' he' u hu
        obtain ⟨s, hsu, hs⟩ := hlow e' he' u hu
        cases hnew.symm.trans hs
        exact hsu
      have hmem : ∀ x ∈ es.filterMap ToInfo.newTo, t ≤ x := by
        intro x hx
        obtain ⟨e', he', hx⟩ := mem_filterMap.mp hx
        exact hlow' e' he' x hx
      have hcons : (e :: es).filterMap ToInfo.newTo = t :: es.filterMap ToInfo.newTo := by
        rw [filterMap_cons, hnew]
      simp only [assignRest, hnew]
      rw [hcons]
      rcases Nat.eq_or_lt_of_le hpt with rfl | hlt
      · rw [if_pos rfl, ih k hlow' hsorted', sortDedup_cons_self, map_cons]
        simp only [ToInfo.number, hnew, idxOf_sortDedup_cons hmem, add_zero]
      · have hbelow : ∀ x ∈ t :: es.filterMap ToInfo.newTo, p < x := by
          intro x hx
          rcases mem_cons.mp hx with rfl | hx
          · exact hlt
          · exact hlt.trans_le (hmem x hx)
        rw [if_neg (fun h => hlt.ne (Option.some.inj h)), ih (k + 1) hlow' hsorted',
          sortDedup_cons_of_lt hbelow]
        set T := sortDedup (t :: es.filterMap ToInfo.newTo) with hT
        -- one place further on in the longer list
        have hshift : ∀ u ∈ t :: es.filterMap ToInfo.newTo,
            k + (p :: T).idxOf u = k + 1 + T.idxOf u := by
          intro u hu
          rw [idxOf_cons_ne _ (hbelow u hu).ne]
          omega
        have hzero : T.idxOf t = 0 := idxOf_sortDedup_cons hmem
        have hpos : 0 < T.length := length_pos_of_mem (mem_sortDedup.mpr mem_cons_self)
        refine Prod.ext ?_ ?_
        · refine cons_eq_cons.mpr ⟨?_, map_congr_left fun e' he' => ?_⟩
          · simp only [ToInfo.number, hnew, hshift t mem_cons_self, hzero, add_zero]
          · cases hu : e'.newTo with
            | none => simp only [ToInfo.number, hu]
            | some u =>
              have hmem' : u ∈ es.filterMap ToInfo.newTo := mem_filterMap.mpr ⟨e', he', hu⟩
              simp only [ToInfo.number, hu, hshift u (mem_cons_of_mem t hmem')]
        · rw [length_cons]
          omega

/-- The numbering of a table with an entry that is kept. -/
theorem assignInfo_eq {es : List ToInfo} (hsorted : es.Pairwise ToInfo.newLe)
    (hkept : es.filterMap ToInfo.newTo ≠ []) :
    assignInfo es =
      (es.map (ToInfo.number (sortDedup (es.filterMap ToInfo.newTo)) 0),
        (sortDedup (es.filterMap ToInfo.newTo)).length) := by
  cases es with
  | nil => exact absurd rfl hkept
  | cons e es =>
    obtain ⟨hlow, hsorted'⟩ := pairwise_cons.mp hsorted
    -- the first entry is kept, if any is
    obtain ⟨p, hp⟩ : ∃ p, e.newTo = some p := by
      obtain ⟨x, hx⟩ := exists_mem_of_ne_nil _ hkept
      obtain ⟨e', he', hnew⟩ := mem_filterMap.mp hx
      rcases mem_cons.mp he' with heq | he'
      · exact ⟨x, heq ▸ hnew⟩
      · obtain ⟨s, -, hs⟩ := hlow e' he' x hnew
        exact ⟨s, hs⟩
    have hfirst : ∀ e' ∈ es, ∀ t, e'.newTo = some t → p ≤ t := by
      intro e' he' t ht
      obtain ⟨s, hst, hs⟩ := hlow e' he' t ht
      cases hp.symm.trans hs
      exact hst
    have hmem : ∀ x ∈ es.filterMap ToInfo.newTo, p ≤ x := by
      intro x hx
      obtain ⟨e', he', hx⟩ := mem_filterMap.mp hx
      exact hfirst e' he' x hx
    have hpos : 0 < (sortDedup (p :: es.filterMap ToInfo.newTo)).length :=
      length_pos_of_mem (mem_sortDedup.mpr mem_cons_self)
    simp only [assignInfo, hp, assignRest_eq 0 hfirst hsorted', filterMap_cons, map_cons]
    rw [Nat.sub_add_cancel hpos]
    simp only [ToInfo.number, hp, idxOf_sortDedup_cons hmem, add_zero]

/-- If no entry is kept, one number is given away all the same. -/
theorem assignInfo_dropped {es : List ToInfo} (hne : es ≠ []) (hnone : ∀ e ∈ es, e.newTo = none) :
    (assignInfo es).2 = 1 ∧ ∀ e ∈ (assignInfo es).1, e.newTo = none := by
  cases es with
  | nil => exact absurd rfl hne
  | cons e es =>
    obtain ⟨he, hes⟩ := forall_mem_cons.mp hnone
    have hrest : assignRest e.newTo 0 es = (es, 0) := by
      cases es with
      | nil => rfl
      | cons e' es => simp [assignRest, hes e' mem_cons_self]
    simp only [assignInfo, hrest]
    exact ⟨trivial, forall_mem_cons.mpr ⟨he, hes⟩⟩

/-- Sorting back by the old destinations restores the order of the groups. -/
theorem insertionSort_oldLe {info : List ToInfo} (hasc : Ascending ToInfo.oldTo info)
    {F : ToInfo → ToInfo} (hF : ∀ e, (F e).oldTo = e.oldTo) :
    ((info.insertionSort ToInfo.newLe).map F).insertionSort ToInfo.oldLe = info.map F := by
  have hasc' : Ascending ToInfo.oldTo (info.map F) := by
    refine pairwise_map.mpr (List.Pairwise.imp ?_ hasc)
    intro a b hab
    rwa [hF, hF]
  have hperm : (((info.insertionSort ToInfo.newLe).map F).insertionSort ToInfo.oldLe).Perm
      (info.map F) :=
    (perm_insertionSort _ _).trans ((perm_insertionSort _ _).map F)
  have hanti : ∀ a b, a ∈ ((info.insertionSort ToInfo.newLe).map F).insertionSort ToInfo.oldLe →
      b ∈ info.map F → a.oldLe b → b.oldLe a → a = b := fun a b ha hb hab hba =>
    SortedArray.eq_of_key_eq ⟨info.map F, hasc'⟩ (hperm.mem_iff.mp ha) hb (le_antisymm hab hba)
  exact List.Perm.eq_of_pairwise hanti (pairwise_insertionSort _ _)
    (List.Pairwise.imp (fun h => le_of_lt h) hasc') hperm

/-- One new group, group by group. -/
def collect (remap : ℕ → Option ℕ) (t : ℕ) (n g : EdgeGroup) : EdgeGroup :=
  if remap g.toState = some t then ⟨n.symbols ||| g.symbols, t⟩ else n

/-- The second pass builds all new groups side by side. -/
theorem getElem?_foldl_condense {targets : List ℕ} (hnodup : targets.Nodup) {remap : ℕ → Option ℕ}
    (hmem : ∀ g ∈ gs, ∀ t, remap g.toState = some t → t ∈ targets) (ngroups : List EdgeGroup)
    {i t : ℕ} (hi : targets[i]? = some t) :
    ((gs.map fun g => (ToInfo.number targets 0 ⟨g.toState, remap g.toState, none⟩, g)).foldl
        condense ngroups)[i]? =
      (ngroups[i]?).map fun n => gs.foldl (collect remap t) n := by
  induction gs generalizing ngroups with
  | nil => simp
  | cons g gs ih =>
    rw [map_cons, foldl_cons, ih fun g' hg' => hmem g' (mem_cons_of_mem g hg')]
    cases hg : remap g.toState with
    | none => simp [condense, ToInfo.number, collect, hg]
    | some u =>
      have hu : u ∈ targets := hmem g mem_cons_self u hg
      simp only [condense, ToInfo.number, zero_add, getElem?_modify]
      by_cases hut : u = t
      · subst hut
        have hidx : targets.idxOf u = i := by
          obtain ⟨hlt, hget⟩ := List.getElem?_eq_some_iff.mp hi
          rw [← hget, hnodup.idxOf_getElem]
        simp [hidx, collect, hg, Function.comp_def]
      · have hidx : targets.idxOf u ≠ i := by
          rintro rfl
          rw [getElem?_idxOf hu] at hi
          exact hut (Option.some.inj hi)
        simp [hidx, collect, hg, hut]

/-- One new group has the labels of all groups that come to it. -/
theorem foldl_collect (remap : ℕ → Option ℕ) (t : ℕ) (gs : List EdgeGroup) (n : EdgeGroup) :
    gs.foldl (collect remap t) n =
      ⟨gs.foldl (fun sy g => if remap g.toState = some t then sy ||| g.symbols else sy) n.symbols,
        if ∃ g ∈ gs, remap g.toState = some t then t else n.toState⟩ := by
  induction gs generalizing n with
  | nil => simp
  | cons g gs ih =>
    rw [foldl_cons, ih]
    by_cases h : remap g.toState = some t <;> simp [collect, h]

theorem length_compactTargets_le (gs : List EdgeGroup) (remap : ℕ → Option ℕ) :
    (compactTargets gs remap).length ≤ gs.length := by
  refine (dedup_sublist _).length_le.trans ?_
  rw [length_insertionSort]
  exact length_filterMap_le _ _

theorem foldl_condense_dropped {es : List (ToInfo × EdgeGroup)} (h : ∀ e ∈ es, e.1.newTo = none)
    (ngroups : List EdgeGroup) : es.foldl condense ngroups = ngroups := by
  induction es generalizing ngroups with
  | nil => rfl
  | cons e es ih =>
    obtain ⟨he, hes⟩ := forall_mem_cons.mp h
    rw [foldl_cons, ih hes, condense, he]

/-- **Compacting** the groups of a set with symbols: one group for each new destination, or a
group without symbols if there is none. -/
theorem compactGroups_eq (h : (array ceil gs).Valid) (hne : gs ≠ []) (remap : ℕ → Option ℕ) :
    compactGroups remap ceil gs =
      if compactTargets gs remap = [] then [⟨0, 0⟩]
      else (compactTargets gs remap).map fun t => ⟨compactSymbols gs remap t, t⟩ := by
  set info := gs.map fun g => ({ oldTo := g.toState, newTo := remap g.toState } : ToInfo)
    with hinfo
  set sorted := info.insertionSort ToInfo.newLe with hsorted
  show (((assignInfo sorted).1.insertionSort ToInfo.oldLe).zip gs |>.foldl condense
    (replicate ceil ⟨0, 0⟩)).take (assignInfo sorted).2 = _
  have htargets : sortDedup (sorted.filterMap ToInfo.newTo) = compactTargets gs remap := by
    apply sortDedup_eq_of_mem_iff (sortDedup_pairwise_lt _)
    simp [hsorted, hinfo]
  have hceil : 0 < ceil := h.2.2
  split
  · rename_i hnil
    -- nothing is kept
    have hnone : ∀ e ∈ sorted, e.newTo = none := by
      intro e he
      cases hnew : e.newTo with
      | none => rfl
      | some t =>
        have hmem : t ∈ sortDedup (sorted.filterMap ToInfo.newTo) :=
          mem_sortDedup.mpr (mem_filterMap.mpr ⟨e, he, hnew⟩)
        rw [htargets, hnil] at hmem
        cases hmem
    have hsne : sorted ≠ [] := by
      intro hnil'
      have hlen : sorted.length = gs.length := by simp [hsorted, hinfo]
      rw [hnil'] at hlen
      exact hne (length_eq_zero_iff.mp hlen.symm)
    obtain ⟨hcount, hdropped⟩ := assignInfo_dropped hsne hnone
    rw [hcount, foldl_condense_dropped]
    · rw [take_replicate, Nat.min_eq_left hceil]
      rfl
    · intro e he
      have hmem := (of_mem_zip he).1
      exact hdropped _ ((mem_insertionSort _).mp hmem)
  · rename_i hsome
    have hkept : sorted.filterMap ToInfo.newTo ≠ [] := by
      intro hnil
      rw [hnil] at htargets
      exact hsome htargets.symm
    -- the second sort undoes the first, so entries and groups pair up again
    have hasc : Ascending ToInfo.oldTo info := pairwise_map.mpr h.1
    have hold : ∀ e, (ToInfo.number (compactTargets gs remap) 0 e).oldTo = e.oldTo := by
      intro e
      unfold ToInfo.number
      split <;> rfl
    rw [assignInfo_eq (pairwise_insertionSort _ _) hkept, htargets]
    rw [insertionSort_oldLe hasc hold, map_map, ← map_prod_right_eq_zip]
    apply ext_getElem?
    intro i
    rw [getElem?_take]
    have hle : (compactTargets gs remap).length ≤ ceil :=
      (length_compactTargets_le gs remap).trans h.2.1
    split
    · rename_i hi
      have hget := getElem?_eq_getElem hi
      have hmem : ∀ g ∈ gs, ∀ t, remap g.toState = some t → t ∈ compactTargets gs remap := by
        intro g hg t ht
        simp only [compactTargets, mem_sortDedup, mem_filterMap]
        exact ⟨g, hg, ht⟩
      -- slot `i` collects the symbols of all groups numbered `i`
      have hnodup : (compactTargets gs remap).Nodup :=
        (sortDedup_pairwise_lt _).imp ne_of_lt
      refine (getElem?_foldl_condense hnodup hmem _ hget).trans ?_
      rw [getElem?_replicate, if_pos (hi.trans_le hle), Option.map_some, getElem?_map,
        hget, foldl_collect, if_pos]
      · rfl
      · have ht := getElem_mem hi
        simp only [compactTargets, mem_sortDedup, mem_filterMap] at ht
        exact ht
    · rename_i hi
      rw [getElem?_eq_none (by simpa using hi)]

theorem Valid.compact (h : set.Valid) (remap : ℕ → Option ℕ) :
    (set.compact remap).Valid ∧
      ∀ c t, (set.compact remap).HasEdge c t ↔ ∃ t', set.HasEdge c t' ∧ remap t' = some t := by
  apply h.unlessEmpty
  intro ceil gs hgs hne
  rw [compactGroups_eq hgs hne]
  refine ⟨?_, ?_, groupsHave_compacted gs remap⟩
  · split
    · exact pairwise_singleton _ _
    · exact pairwise_map.mpr (sortDedup_pairwise_lt _)
  · split
    · exact hgs.2.2
    · rw [length_map]
      exact (length_compactTargets_le gs remap).trans hgs.2.1

/-! ## §6 Without The Capacity

The functions of `EdgeSet` are those of the stored set, as far as the groups go. -/

section Agree

variable {set : RawEdgeSet} (h : set.Valid)

theorem Valid.edgeSetEmpty_toEdgeSet : edgeSetEmpty (set.toEdgeSet h) = set.empty := by
  apply Bool.eq_iff_iff.mpr
  rw [edgeSetEmpty_eq_true_iff, empty_eq_true_iff]
  unfold EdgeSet.HasEdge
  rw [groups_toEdgeSet]
  exact Iff.rfl

theorem Valid.groups_compact (remap : ℕ → Option ℕ) :
    (set.compact remap).groups = (edgeSetCompact (set.toEdgeSet h) remap).groups := by
  unfold edgeSetCompact
  rw [h.edgeSetEmpty_toEdgeSet]
  rcases set.unlessEmpty_cases (compactGroups remap) with ⟨heq, hno⟩ | ⟨ceil, gs, rfl, he, heq⟩
  · rw [RawEdgeSet.compact, heq, if_pos (set.empty_eq_true_iff.mpr hno), groups_toEdgeSet]
  · have hne : gs ≠ [] := by
      rintro rfl
      cases he.symm
    rw [RawEdgeSet.compact, heq, he, compactGroups_eq h hne]
    by_cases hnil : compactTargets gs remap = []
    · have hnil' : compactTargets ((array ceil gs).toEdgeSet h).groups remap = [] := hnil
      rw [if_pos hnil, if_pos hnil']
      rfl
    · have hnil' : ¬ compactTargets ((array ceil gs).toEdgeSet h).groups remap = [] := hnil
      rw [if_neg hnil, if_neg hnil']
      rfl

/-- **The stored set refines the set**: its groups are the same after each operation, wherever the
array was full or left empty. -/
theorem groups_eq_toEdgeSet :
    (∀ symbols state, (set.addBulk symbols state).groups =
      (edgeSetAddBulk (set.toEdgeSet h) symbols state).groups) ∧
    (∀ state, (set.removeState state).groups =
      (edgeSetRemoveState (set.toEdgeSet h) state).groups) ∧
    (∀ old new, (set.replaceState old new).groups =
      (edgeSetReplaceState (set.toEdgeSet h) old new).groups) ∧
    ∀ remap, (set.compact remap).groups = (edgeSetCompact (set.toEdgeSet h) remap).groups := by
  refine ⟨fun symbols state => ?_, fun state => ?_, fun old new => ?_, h.groups_compact⟩
  · cases set with
    | null => rfl
    | array ceil gs =>
      obtain ⟨ceil', heq, -⟩ := addBulk_array h.2.1 h.2.2 symbols state
      rw [heq]
      rfl
  · unfold RawEdgeSet.removeState RawEdgeSet.unlessEmpty edgeSetRemoveState
    rw [h.edgeSetEmpty_toEdgeSet]
    split
    · exact (groups_toEdgeSet set h).symm
    · cases set with
      | null => rfl
      | array ceil gs => exact removeStateLoop_eq state [] gs
  · unfold RawEdgeSet.replaceState RawEdgeSet.unlessEmpty edgeSetReplaceState
    rw [h.edgeSetEmpty_toEdgeSet]
    split
    · exact (groups_toEdgeSet set h).symm
    · cases set with
      | null => rfl
      | array ceil gs => exact replaceStateLoop_eq old new h.2.1 h.2.2 (by simp)

theorem groups_eq_toEdgeSet_full :
    ((array 1 [⟨2, 0⟩]).addBulk 2 7).groups = [⟨2, 0⟩, ⟨2, 7⟩] := by
  have hvalid : (array 1 [⟨2, 0⟩]).Valid := ⟨pairwise_singleton _ _, le_rfl, Nat.one_pos⟩
  rw [(groups_eq_toEdgeSet hvalid).1]
  rfl

end Agree

end RawEdgeSet

end Libfsm
