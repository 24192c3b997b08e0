import Libfsm.Adt.RawEdgeSet
import Libfsm.Lib.Refinement

/-!
# Edge Sets Under Their Operations

Every sequence of operations on a `struct edge_set *`, against the relation between symbols and
destinations it stands for.

Three operations do not always do what they mean.  Copying from a NULL set into an allocated one
reads through the NULL pointer.  Rebasing adds in the arithmetic of `fsm_state_t`, and when some
destinations wrap around and others do not, the groups are out of order.  Advice on growth adds
and doubles in `size_t`: where the sum wraps around, the new capacity can be too small for the
groups that are there, and where the capacity or its size in bytes wraps around, there is none.

- `EdgeSetOp`: the operations, `EdgeSetOp.apply` what the code does, `EdgeSetOp.effect` what it
  means on a relation
- `RawEdgeSet.Refines`: the groups are in order and fit, and stand for the relation
- `EdgeSetOp.refines_apply_iff`: one operation
- `edgeSetRun_refines_iff`: a whole run from NULL
- `BlockMove`, `blockMoves_live_iff`: the blocks that the operations shift
-/

namespace Libfsm

open Lib

/-! ## §1 Operations -/

/-- The operations that change a set.  The source of a copy is a set that is in order. -/
inductive EdgeSetOp where
  | add (symbol : Byte) (state : ℕ)
  | addBulk (symbols : Symbols) (state : ℕ)
  | addStateSet (symbol : Byte) (states : StateSet)
  | copy (src : { src : RawEdgeSet // src.Valid })
  | remove (symbol : Byte)
  | removeState (state : ℕ)
  | compact (remap : ℕ → Option ℕ)
  | rebase (base : ℕ)
  | replaceState (old new : ℕ)
  | adviseGrowth (count : ℕ)

namespace EdgeSetOp

/-- The operation on the representation; `none` if it reads through a NULL pointer or comes to no
capacity. -/
def apply (set : RawEdgeSet) : EdgeSetOp → Option RawEdgeSet
  | .add symbol state => some (set.add symbol state)
  | .addBulk symbols state => some (set.addBulk symbols state)
  | .addStateSet symbol states => some (set.addStateSet symbol states)
  | .copy src => set.copy src
  | .remove symbol => some (set.remove symbol)
  | .removeState state => some (set.removeState state)
  | .compact remap => some (set.compact remap)
  | .rebase base => some (set.rebase base)
  | .replaceState old new => some (set.replaceState old new)
  | .adviseGrowth count => set.adviseGrowth count

/-- The operation on a set of pairs of a symbol and a destination. -/
def effect (E : Set (Byte × ℕ)) : EdgeSetOp → Set (Byte × ℕ)
  | .add symbol state => insert (symbol, state) E
  | .addBulk symbols state => E ∪ {e | e.2 = state ∧ symbols.getLsbD e.1 = true}
  | .addStateSet symbol states => E ∪ {e | e.1 = symbol ∧ e.2 ∈ states}
  | .copy src => E ∪ {e | src.val.HasEdge e.1 e.2}
  | .remove symbol => {e | e ∈ E ∧ e.1 ≠ symbol}
  | .removeState state => {e | e ∈ E ∧ e.2 ≠ state}
  | .compact remap => {e | ∃ t, (e.1, t) ∈ E ∧ remap t = some e.2}
  | .rebase base => {e | ∃ t, (e.1, t) ∈ E ∧ RawEdgeSet.rebaseState base t = e.2}
  | .replaceState old new => {e | ∃ t, (e.1, t) ∈ E ∧ (if t = old then new else t) = e.2}
  | .adviseGrowth _ => E

/-- The condition under which an operation does what it means. -/
def Safe (set : RawEdgeSet) : EdgeSetOp → Prop
  -- NULL is not copied into an allocated set
  | .copy src => set = .null ∨ src.val ≠ .null
  -- there are no symbols, or the new destinations still ascend
  | .rebase base =>
    set.empty = true ∨
      Ascending (fun g => RawEdgeSet.rebaseState base g.toState) set.groups
  -- the sum is a capacity, and no power of two separates it from the groups that are there
  | .adviseGrowth count =>
    (set.ceilOrInit + count) % 2 ^ 64 ≤ 2 ^ 58 ∧
      ∀ k, (set.ceilOrInit + count) % 2 ^ 64 ≤ 2 ^ k → set.groups.length ≤ 2 ^ k
  | _ => True

end EdgeSetOp

/-! ## §2 What A Set Stands For -/

/-- The groups ascend strictly by destination and fit the capacity, and their edges are `E`. -/
structure RawEdgeSet.Refines (set : RawEdgeSet) (E : Set (Byte × ℕ)) : Prop where
  valid : set.Valid
  edges : ∀ c t, set.HasEdge c t ↔ (c, t) ∈ E

theorem RawEdgeSet.null_refines : RawEdgeSet.null.Refines ∅ :=
  ⟨trivial, by simp [RawEdgeSet.HasEdge, GroupsHave]⟩

namespace EdgeSetOp

/-! ## §3 One Operation -/

/-- **One operation** on a set that stands for `E` succeeds with one that stands for the effect
on `E`, exactly under its condition. -/
theorem refines_apply_iff {set : RawEdgeSet} {E : Set (Byte × ℕ)} (h : set.Refines E)
    (op : EdgeSetOp) :
    (∃ set', op.apply set = some set' ∧ set'.Refines (op.effect E)) ↔ op.Safe set := by
  -- an operation that always does what it means
  have hsome : ∀ {set' : RawEdgeSet}, op.apply set = some set' → set'.Refines (op.effect E) →
      op.Safe set → ((∃ set', op.apply set = some set' ∧ set'.Refines (op.effect E)) ↔
        op.Safe set) :=
    fun happly hrefines hsafe => iff_of_true ⟨_, happly, hrefines⟩ hsafe
  cases op with
  | add symbol state =>
    refine hsome rfl ⟨h.valid.add symbol state, fun c t => ?_⟩ trivial
    rw [h.valid.hasEdge_add, h.edges, effect, Set.mem_insert_iff, Prod.mk.injEq, or_comm, and_comm]
  | addBulk symbols state =>
    refine hsome rfl ⟨h.valid.addBulk symbols state, fun c t => ?_⟩ trivial
    rw [h.valid.hasEdge_addBulk, h.edges]
    rfl
  | addStateSet symbol states =>
    obtain ⟨hvalid, hedges⟩ := h.valid.addStateSet symbol states
    refine hsome rfl ⟨hvalid, fun c t => ?_⟩ trivial
    rw [hedges, h.edges]
    rfl
  | copy src =>
    obtain ⟨src, hsrc⟩ := src
    rcases RawEdgeSet.copy_spec h.valid hsrc with ⟨hnone, hset, hnull⟩ |
      ⟨set', hsome', hsafe, hvalid, hedges⟩
    · refine iff_of_false ?_ fun hsafe => ?_
      · intro ⟨set', happly, _⟩
        have happly : set.copy src = some set' := happly
        rw [hnone] at happly
        cases happly
      · exact hsafe.elim hset fun hne => hne hnull
    · refine hsome hsome' ⟨hvalid, fun c t => ?_⟩ hsafe
      rw [hedges, h.edges]
      rfl
  | remove symbol =>
    obtain ⟨hvalid, hedges⟩ := h.valid.remove symbol
    refine hsome rfl ⟨hvalid, fun c t => ?_⟩ trivial
    rw [hedges]
    simp [h.edges, effect]
  | removeState state =>
    obtain ⟨hvalid, hedges⟩ := h.valid.removeState state
    refine hsome rfl ⟨hvalid, fun c t => ?_⟩ trivial
    rw [hedges]
    simp [h.edges, effect]
  | compact remap =>
    obtain ⟨hvalid, hedges⟩ := h.valid.compact remap
    refine hsome rfl ⟨hvalid, fun c t => ?_⟩ trivial
    rw [hedges]
    simp only [h.edges]
    rfl
  | rebase base =>
    have hedges : ∀ c t, (set.rebase base).HasEdge c t ↔ (c, t) ∈ effect E (.rebase base) := by
      intro c t
      rw [RawEdgeSet.hasEdge_rebase]
      simp only [h.edges]
      rfl
    -- the edges always move; what may break is the order of the groups
    rw [Safe, ← h.valid.rebase_iff base]
    constructor
    · intro ⟨set', happly, hrefines⟩
      cases happly
      exact hrefines.valid
    · exact fun hvalid => ⟨_, rfl, hvalid, hedges⟩
  | replaceState old new =>
    obtain ⟨hvalid, hedges⟩ := h.valid.replaceState old new
    refine hsome rfl ⟨hvalid, fun c t => ?_⟩ trivial
    rw [hedges]
    simp only [h.edges]
    rfl
  | adviseGrowth count =>
    rw [Safe, ← h.valid.adviseGrowth_iff count]
    refine exists_congr fun set' => and_congr_right fun happly => ?_
    refine ⟨fun hrefines => hrefines.valid, fun hvalid => ⟨hvalid, fun c t => ?_⟩⟩
    rw [RawEdgeSet.HasEdge, RawEdgeSet.groups_of_adviseGrowth happly]
    exact h.edges c t

end EdgeSetOp

/-! ## §4 Runs -/

/-- The edge set after some operations, from NULL; `none` if one of them fails. -/
def edgeSetRun (ops : List EdgeSetOp) : Option RawEdgeSet :=
  ops.foldlM EdgeSetOp.apply .null

/-- The relation after some operations, from the empty one. -/
def edgeSetRunEffect (ops : List EdgeSetOp) : Set (Byte × ℕ) :=
  ops.foldl EdgeSetOp.effect ∅

/-- **Runs.**  From NULL, an edge set stands for its relation throughout a run exactly if no
operation of the run copies NULL into an allocated set, rebases destinations so that they no
longer ascend, or advises a growth that `size_t` cannot express. -/
theorem edgeSetRun_refines_iff (ops : List EdgeSetOp) :
    (∀ pre, pre <+: ops →
        ∃ set, edgeSetRun pre = some set ∧ set.Refines (edgeSetRunEffect pre)) ↔
      ∀ pre op, pre ++ [op] <+: ops → ∀ set, edgeSetRun pre = some set → op.Safe set := by
  have hstep : ∀ {set : RawEdgeSet} {E : Set (Byte × ℕ)} (op : EdgeSetOp), set.Refines E →
      ((∃ set', op.apply set = some set' ∧ set'.Refines (op.effect E)) ↔ op.Safe set) :=
    fun op h => EdgeSetOp.refines_apply_iff h op
  exact forall_prefix_foldlM_iff hstep RawEdgeSet.null_refines ops

/-- Copying NULL into a set with one edge reads through the NULL pointer; rebasing the
destinations 0 and 2 ^ 32 - 1 by one leaves them as 1 and 0. -/
theorem edgeSetRun_copy_null_and_rebase :
    edgeSetRun [.add 97 0, .copy ⟨.null, trivial⟩] = none ∧
      (edgeSetRun [.add 97 0, .add 97 (2 ^ 32 - 1), .rebase 1]).map
          (fun set => set.groups.map EdgeGroup.toState) = some [1, 0] := by
  decide +kernel

namespace RawEdgeSet

variable {set : RawEdgeSet} {ceil : ℕ} {gs : List EdgeGroup}

/-! ## §5 Block Moves

The slots at and beyond `count` are undefined.  `edge_set_remove_state` and
`edge_set_replace_state` compute the length of the block they move as if the group that they
remove were part of it. -/

/-- A call of `memmove` on the groups, with the set it is made on. -/
structure BlockMove where
  groups : List EdgeGroup
  ceil : ℕ
  src : ℕ
  dst : ℕ
  len : ℕ
  deriving DecidableEq

namespace BlockMove

/-- The slots that are read; `none` is an undefined one. -/
def block (m : BlockMove) : List (Option EdgeGroup) :=
  (List.range m.len).map fun k => m.groups[m.src + k]?

/-- The block is the live groups from `src` on, and goes to slots below the capacity. -/
def Live (m : BlockMove) : Prop :=
  m.block = (m.groups.drop m.src).map some ∧ m.dst + m.len ≤ m.ceil

theorem live_iff (m : BlockMove) :
    m.Live ↔ m.len = m.groups.length - m.src ∧ m.dst + m.len ≤ m.ceil := by
  refine and_congr_left fun _ => ⟨fun h => ?_, fun h => ?_⟩
  · simpa [block] using congrArg List.length h
  · apply List.ext_getElem
    · simp [block, h]
    · intro k hk _
      simp only [block, List.length_map, List.length_range] at hk
      simp [block, List.getElem?_eq_getElem (show m.src + k < m.groups.length by omega)]

end BlockMove

/-- `ceil`; NULL has no room. -/
def capacity : RawEdgeSet → ℕ
  | .null => 0
  | .array ceil _ => ceil

/-- The block move of `edge_set_add_bulk`.  There is none for NULL. -/
def addBulkMoves (ceil : ℕ) (gs : List EdgeGroup) (state : ℕ) : List BlockMove :=
  match findStatePosition gs state with
  | (true, _) => []
  | (false, i) =>
    if i < gs.length ∧ gs[i]?.map EdgeGroup.toState ≠ some state then
      -- after `grow_groups`
      [⟨gs, if gs.length = ceil then 2 * ceil else ceil, i, i + 1, gs.length - i⟩]
    else []

/-- The move that removes the group at `i`: `to_mv` is `set->count - i`. -/
def removeMove (ceil : ℕ) (gs : List EdgeGroup) (i : ℕ) : BlockMove :=
  ⟨gs, ceil, i + 1, i, gs.length - i⟩

/-- The block moves of the loop of `edge_set_remove_state`, with the groups passed so far and
those to come. -/
def removeStateLoopMoves (ceil state : ℕ) : List EdgeGroup → List EdgeGroup → List BlockMove
  | _, [] => []
  | kept, g :: gs =>
    if g.toState = state then
      removeMove ceil (kept ++ g :: gs) kept.length :: removeStateLoopMoves ceil state kept gs
    else removeStateLoopMoves ceil state (kept ++ [g]) gs

/-- The block moves of `edge_set_remove_state`. -/
def removeStateMoves (set : RawEdgeSet) (state : ℕ) : List BlockMove :=
  if set.empty then [] else removeStateLoopMoves set.capacity state [] set.groups

/-- The block moves of `edge_set_replace_state`, which removes a group and adds one with
`edge_set_add`. -/
def replaceStateMoves (set : RawEdgeSet) (old new : ℕ) : List BlockMove :=
  if set.empty then []
  else
    match set.groups.find? fun g => g.toState = old with
    | none => []
    | some cp =>
      match findFirstGroupLabel cp with
      | none => []
      | some _ =>
        removeMove set.capacity set.groups (set.groups.findIdx fun g => g.toState = old) ::
          addBulkMoves set.capacity (set.groups.erase cp) new

theorem live_addBulkMoves (hle : gs.length ≤ ceil) (state : ℕ) :
    ∀ m ∈ addBulkMoves ceil gs state, m.Live := by
  intro m hm
  unfold addBulkMoves at hm
  split at hm
  · cases hm
  · split at hm
    · obtain rfl := List.mem_singleton.mp hm
      refine (BlockMove.live_iff _).mpr ⟨rfl, ?_⟩
      dsimp only
      split <;> omega
    · cases hm

/-- What is moved is one slot longer than the groups behind the one removed. -/
theorem not_live_removeMove {i : ℕ} (hi : i < gs.length) : ¬ (removeMove ceil gs i).Live := by
  rw [BlockMove.live_iff, removeMove]
  dsimp only
  omega

theorem live_removeStateLoopMoves_iff {state : ℕ} (kept : List EdgeGroup) :
    (∀ m ∈ removeStateLoopMoves ceil state kept gs, m.Live) ↔ ∀ g ∈ gs, g.toState ≠ state := by
  induction gs generalizing kept with
  | nil => simp [removeStateLoopMoves]
  | cons g gs ih =>
    unfold removeStateLoopMoves
    split
    · rename_i hg
      refine iff_of_false (fun h => ?_) fun h => h g List.mem_cons_self hg
      exact not_live_removeMove (by simp) (h _ List.mem_cons_self)
    · rename_i hg
      rw [ih, List.forall_mem_cons, and_iff_right hg]

/-- **Which blocks are live**: those of an insertion always, those of a removal never. -/
theorem blockMoves_live_iff (h : set.groups.length ≤ set.capacity) (state old new : ℕ) :
    (∀ m ∈ addBulkMoves set.capacity set.groups state, m.Live) ∧
      ((∀ m ∈ set.removeStateMoves state, m.Live) ↔
        set.empty = true ∨ ∀ g ∈ set.groups, g.toState ≠ state) ∧
      ((∀ m ∈ set.replaceStateMoves old new, m.Live) ↔
        set.empty = true ∨ ∀ g ∈ set.groups.find? fun g => g.toState = old,
          findFirstGroupLabel g = none) := by
  unfold removeStateMoves replaceStateMoves
  by_cases hempty : set.empty = true
  · simpa [hempty] using live_addBulkMoves h state
  · rw [if_neg hempty, if_neg hempty, or_iff_right hempty, or_iff_right hempty]
    refine ⟨live_addBulkMoves h state, live_removeStateLoopMoves_iff [], ?_⟩
    split
    · simp [*]
    · rename_i cp hfind
      split
      · simp [*]
      · rename_i label hlabel
        refine iff_of_false (fun hall => ?_) fun hnone => ?_
        · have hlt := List.findIdx_lt_length_of_exists
            ⟨cp, List.mem_of_find?_eq_some hfind, List.find?_some hfind⟩
          exact not_live_removeMove hlt (hall _ List.mem_cons_self)
        · cases (hnone cp hfind).symm.trans hlabel

theorem blockMoves_live_iff_two : (∀ g ∈ [⟨1, 0⟩, ⟨1, 5⟩], EdgeGroup.toState g ≠ 3) ∧
    ∀ m ∈ (array 2 [⟨1, 0⟩, ⟨1, 5⟩]).removeStateMoves 3, m.Live :=
  ⟨by decide, (blockMoves_live_iff (by decide) 3 0 0).2.1.mpr (by decide +kernel)⟩

/-- Removing the only group of a full set reads the slot behind the array. -/
theorem removeStateMoves_full :
    (array 1 [⟨1, 0⟩]).removeStateMoves 0 = [⟨[⟨1, 0⟩], 1, 1, 0, 1⟩] ∧
      (⟨[⟨1, 0⟩], 1, 1, 0, 1⟩ : BlockMove).block = [none] := by
  decide +kernel

end RawEdgeSet

end Libfsm
