import Libfsm.Adt.StateSetOps
import Libfsm.Ops.Compact

/-!
# Removing A State

`fsm_removestate` takes a state out of an FSM in place.  To leave no hole, the last state moves
to the index that became free, and every edge that led to the last state is led there.

Three things that hold state numbers are left out of the move: the start state, the end ID
table and the eager output table.  And the move rewrites a number inside an ascending array of
epsilon destinations without putting it where it belongs.

- `fsmRemovestate`: the function
- `removedIndex`: where each state goes
- `StateRemoved`: what it means to delete one state and nothing else
- `fsmRemovestate_exact_iff`: when the function does that
-/

namespace Libfsm

open Lib
open List hiding nil cons

variable {n s t : ℕ}

/-! ## §1 The Function -/

/-- The first loop's body: no edge leads to `state` any more. -/
def FsmState.removeTarget (state : ℕ) (st : FsmState) : FsmState :=
  { st with
    epsilons := stateSetRemove st.epsilons state
    edges := edgeSetRemoveState st.edges state }

/-- The second loop's body: edges to `old` lead to `new`. -/
def FsmState.replaceTarget (old new : ℕ) (st : FsmState) : FsmState :=
  { st with
    epsilons := stateSetReplace st.epsilons old new
    edges := edgeSetReplaceState st.edges old new }

/-- The part of `fsm_removestate` before the hole is filled. -/
def detachState (f : Fsm) (state : ℕ) : Fsm :=
  -- for endcount accounting
  let f := fsmSetend f state false
  let f := f.modifyAll (range f.statecount) fun _ => FsmState.removeTarget state
  if fsmGetstart f = some state then fsmClearstart f else f

/-- `fsm_removestate`.  It returns 1 whenever memory can be had. -/
def fsmRemovestate (f : Fsm) (state : ℕ) : Fsm :=
  let f := detachState f state
  let last := f.statecount - 1
  let f :=
    if state < last then
      (f.modifyState state fun _ => f.state last).modifyAll (range last)
        fun _ => FsmState.replaceTarget last state
    else f
  { f with states := f.states.dropLast }

/-! ## §2 Deleting One State -/

/-- Where the states of an FSM with `n` states go when `x` is removed. -/
def removedIndex (n x s : ℕ) : Option ℕ :=
  if s < n ∧ s ≠ x then some (if s = n - 1 then x else s) else none

/-- `q` is `f` without one state, under the renumbering of the others. -/
structure StateRemoved (f q : Fsm) (remap : ℕ → Option ℕ) : Prop where
  statecount : q.statecount + 1 = f.statecount
  -- the renumbering is a bijection between the states that stay and the states of `q`
  inj : ∀ {i j t}, remap i = some t → remap j = some t → i = j
  lt : ∀ {s t}, remap s = some t → s < f.statecount ∧ t < q.statecount
  onto : ∀ {t}, t < q.statecount → ∃ s, remap s = some t
  edge : ∀ {s t}, remap s = some t → ∀ c u,
    (q.Edge t c u ↔ ∃ s', f.Edge s c s' ∧ remap s' = some u)
  eps : ∀ {s t}, remap s = some t → ∀ u, (q.Eps t u ↔ ∃ s', f.Eps s s' ∧ remap s' = some u)
  isEnd : ∀ {s t}, remap s = some t → (q.IsEnd t ↔ f.IsEnd s)
  start : q.start = f.start.bind remap
  endids : ∀ {s t}, remap s = some t → q.endidInfo.get t = f.endidInfo.get s
  eager : ∀ {s t}, remap s = some t → q.eagerOutputInfo.get t = f.eagerOutputInfo.get s
  sorted : ∀ s, (q.state s).epsilons.Sorted

/-- Every epsilon set of the FSM is ascending, without duplicates. -/
def Fsm.EpsilonsSorted (f : Fsm) : Prop := ∀ s, (f.state s).epsilons.Sorted

/-- Only the states that are there have an epsilon set. -/
theorem epsilonsSorted_of_lt {f : Fsm}
    (h : ∀ s < f.statecount, (f.state s).epsilons.Sorted) : f.EpsilonsSorted := by
  intro s
  rcases lt_or_ge s f.statecount with hs | hs
  · exact h s hs
  · rw [Fsm.state_of_le hs]
    exact List.Pairwise.nil

section Index

variable {n x : ℕ}

theorem removedIndex_eq_some :
    removedIndex n x s = some t ↔ s < n ∧ s ≠ x ∧ (if s = n - 1 then x else s) = t := by
  unfold removedIndex
  split
  · simp_all
  · tauto

theorem removedIndex_inj {i j : ℕ} (hi : removedIndex n x i = some t)
    (hj : removedIndex n x j = some t) : i = j := by
  obtain ⟨-, hix, hit⟩ := removedIndex_eq_some.mp hi
  obtain ⟨-, hjx, hjt⟩ := removedIndex_eq_some.mp hj
  split at hit <;> split at hjt <;> omega

theorem removedIndex_lt (hx : x < n) (h : removedIndex n x s = some t) : s < n ∧ t < n - 1 := by
  obtain ⟨hs, hne, ht⟩ := removedIndex_eq_some.mp h
  split at ht <;> omega

/-- The state whose place in the smaller array is `t`. -/
theorem removedIndex_onto (hx : x < n) (ht : t < n - 1) :
    removedIndex n x (if t = x then n - 1 else t) = some t := by
  rw [removedIndex_eq_some]
  split
  · rename_i h
    refine ⟨by omega, by omega, ?_⟩
    rw [if_pos rfl, h]
  · rename_i h
    refine ⟨by omega, h, ?_⟩
    rw [if_neg (by omega)]

theorem removedIndex_ne_last (hs : s < n) (hne : s ≠ x) (hlast : s ≠ n - 1) :
    removedIndex n x s = some s :=
  removedIndex_eq_some.mpr ⟨hs, hne, if_neg hlast⟩

theorem removedIndex_last (h : x < n - 1) : removedIndex n x (n - 1) = some x :=
  removedIndex_eq_some.mpr ⟨by omega, by omega, if_pos rfl⟩

theorem removedIndex_self : removedIndex n x x = none := by
  simp [removedIndex]

end Index

/-! ## §3 What The Function Does To A State -/

section Detach

variable (f : Fsm) (x : ℕ)

/-- The start state apart, two loops are all that is done. -/
theorem detachState_eq : ∃ start, detachState f x =
    { (fsmSetend f x false).modifyAll (range (fsmSetend f x false).statecount)
        fun _ => FsmState.removeTarget x with start := start } := by
  unfold detachState
  dsimp only
  split
  · exact ⟨none, rfl⟩
  · exact ⟨_, rfl⟩

@[simp] theorem statecount_detachState : (detachState f x).statecount = f.statecount := by
  obtain ⟨start, h⟩ := detachState_eq f x
  rw [h]
  exact (Fsm.statecount_modifyAll _ _ _).trans (statecount_fsmSetend f x false)

@[simp] theorem endidInfo_detachState : (detachState f x).endidInfo = f.endidInfo := by
  obtain ⟨start, h⟩ := detachState_eq f x
  rw [h]
  exact (Fsm.endidInfo_modifyAll _ _ _).trans (endidInfo_fsmSetend f x false)

@[simp] theorem eagerOutputInfo_detachState :
    (detachState f x).eagerOutputInfo = f.eagerOutputInfo := by
  obtain ⟨start, h⟩ := detachState_eq f x
  rw [h]
  exact (Fsm.eagerOutputInfo_modifyAll _ _ _).trans (eagerOutputInfo_fsmSetend f x false)

theorem start_detachState :
    (detachState f x).start = if f.start = some x then none else f.start := by
  unfold detachState
  simp only [fsmGetstart, Fsm.start_modifyAll, start_fsmSetend]
  split
  · rfl
  · rw [Fsm.start_modifyAll, start_fsmSetend]

/-- The states other than the detached one lose their edges to it. -/
theorem state_detachState (hs : s < f.statecount) (hne : s ≠ x) :
    (detachState f x).state s = (f.state s).removeTarget x := by
  obtain ⟨start, h⟩ := detachState_eq f x
  rw [h]
  show (Fsm.modifyAll _ _ _).state s = _
  rw [Fsm.state_modifyAll _ nodup_range, statecount_fsmSetend,
    if_pos ⟨mem_range.mpr hs, hs⟩, state_fsmSetend, if_neg fun h => hne h.1]

end Detach

section Remove

variable {f : Fsm} {x : ℕ}

/-- The FSM after the hole is filled. -/
private def filled (f : Fsm) (x : ℕ) : Fsm :=
  if x < f.statecount - 1 then
    (f.modifyState x fun _ => f.state (f.statecount - 1)).modifyAll
      (range (f.statecount - 1)) fun _ => FsmState.replaceTarget (f.statecount - 1) x
  else f

private theorem fsmRemovestate_eq (f : Fsm) (x : ℕ) : fsmRemovestate f x =
    { filled (detachState f x) x with states := (filled (detachState f x) x).states.dropLast } :=
  rfl

private theorem fields_filled (f : Fsm) (x : ℕ) : (filled f x).statecount = f.statecount ∧
    (filled f x).start = f.start ∧ (filled f x).endidInfo = f.endidInfo ∧
      (filled f x).eagerOutputInfo = f.eagerOutputInfo := by
  unfold filled
  split
  · simp
  · simp

@[simp] theorem statecount_fsmRemovestate :
    (fsmRemovestate f x).statecount = f.statecount - 1 := by
  have h : (filled (detachState f x) x).states.length = f.statecount :=
    (fields_filled _ x).1.trans (statecount_detachState f x)
  rw [fsmRemovestate_eq]
  show (List.dropLast _).length = _
  rw [length_dropLast, h]

@[simp] theorem endidInfo_fsmRemovestate : (fsmRemovestate f x).endidInfo = f.endidInfo :=
  (fields_filled _ x).2.2.1.trans (endidInfo_detachState f x)

@[simp] theorem eagerOutputInfo_fsmRemovestate :
    (fsmRemovestate f x).eagerOutputInfo = f.eagerOutputInfo :=
  (fields_filled _ x).2.2.2.trans (eagerOutputInfo_detachState f x)

theorem start_fsmRemovestate :
    (fsmRemovestate f x).start = if f.start = some x then none else f.start :=
  (fields_filled _ x).2.1.trans (start_detachState f x)

private theorem state_dropLast (f : Fsm) (ht : t < f.statecount - 1) :
    ({ f with states := f.states.dropLast } : Fsm).state t = f.state t := by
  have ht' : t < f.states.length - 1 := ht
  unfold Fsm.state
  rw [getD_eq_getElem?_getD, getD_eq_getElem?_getD, getElem?_dropLast, if_pos ht']

/-- A state of the smaller FSM is the state that moved to its index, with its edges led
elsewhere where that is needed. -/
theorem state_fsmRemovestate (hx : x < f.statecount) (h : removedIndex f.statecount x s = some t) :
    (fsmRemovestate f x).state t =
      if x < f.statecount - 1 then
        ((f.state s).removeTarget x).replaceTarget (f.statecount - 1) x
      else (f.state s).removeTarget x := by
  obtain ⟨hs, hne, hst⟩ := removedIndex_eq_some.mp h
  have ht : t < f.statecount - 1 := (removedIndex_lt hx h).2
  have hdetached : (detachState f x).state s = (f.state s).removeTarget x :=
    state_detachState f x hs hne
  have hfilled : (fsmRemovestate f x).state t = (filled (detachState f x) x).state t := by
    rw [fsmRemovestate_eq]
    apply state_dropLast
    rw [(fields_filled _ x).1, statecount_detachState]
    exact ht
  rw [hfilled, filled, statecount_detachState]
  split
  · -- the last state is copied to `x` before the loop rewrites all destinations
    rw [Fsm.state_modifyAll _ nodup_range, Fsm.statecount_modifyState,
      statecount_detachState, if_pos ⟨mem_range.mpr ht, by omega⟩, Fsm.state_modifyState,
      statecount_detachState]
    by_cases hlast : s = f.statecount - 1
    · rw [if_pos hlast] at hst
      rw [if_pos ⟨hst.symm, hx⟩, ← hlast, hdetached]
    · rw [if_neg hlast] at hst
      rw [if_neg fun h => hne (hst.trans h.1), ← hst, hdetached]
  · -- the removed state was the last one, so nothing moves
    rw [if_neg (by omega)] at hst
    rw [← hst, hdetached]

end Remove

/-! ## §4 Edges -/

section Edges

variable {f : Fsm} {x : ℕ}

/-- Labelled edges lead where their destinations went, and are gone if they led to the removed
state. -/
theorem edge_fsmRemovestate (hwf : f.Wf) (hx : x < f.statecount)
    (h : removedIndex f.statecount x s = some t) (c : Byte) (u : ℕ) :
    (fsmRemovestate f x).Edge t c u ↔
      ∃ s', f.Edge s c s' ∧ removedIndex f.statecount x s' = some u := by
  have hlt : ∀ {s'}, (f.state s).edges.HasEdge c s' → s' < f.statecount := fun hs' =>
    hwf.edge_lt hs'
  rw [Fsm.Edge, state_fsmRemovestate hx h]
  simp only [removedIndex_eq_some]
  split
  · simp only [FsmState.replaceTarget, FsmState.removeTarget, hasEdge_edgeSetReplaceState,
      hasEdge_edgeSetRemoveState]
    refine exists_congr fun s' => ?_
    rw [and_assoc]
    exact and_congr_right fun he => (and_iff_right (hlt he)).symm
  · -- nothing was moved: the removed state was the last
    simp only [FsmState.removeTarget, hasEdge_edgeSetRemoveState]
    constructor
    · rintro ⟨he, hne⟩
      exact ⟨u, he, hlt he, hne, if_neg (by omega)⟩
    · rintro ⟨s', he, hs', hne, hu⟩
      rw [if_neg (by omega)] at hu
      exact ⟨hu ▸ he, hu ▸ hne⟩

/-- Closing the gap and renaming the last element are one renaming that drops the removed
state. -/
theorem erase_map_eq_filterMap {l : List ℕ} (hl : l.Nodup) (hlt : ∀ s ∈ l, s < n) (x : ℕ) :
    ((l.erase x).map fun s => if s = n - 1 then x else s) = l.filterMap (removedIndex n x) := by
  rw [hl.erase_eq_filter, ← filterMap_eq_map', filterMap_filter]
  apply filterMap_congr
  intro s hs
  by_cases hsx : s = x
  · simp [hsx, removedIndex_self]
  · simp [hsx, removedIndex, hlt s hs]

/-- The epsilon destinations of a state, in the order of the array. -/
theorem epsilons_fsmRemovestate (hwf : f.Wf) (hsorted : f.EpsilonsSorted) (hx : x < f.statecount)
    (h : removedIndex f.statecount x s = some t) :
    ((fsmRemovestate f x).state t).epsilons.toList =
      (f.state s).epsilons.toList.filterMap (removedIndex f.statecount x) := by
  have hnodup : (f.state s).epsilons.toList.Nodup := List.Pairwise.imp ne_of_lt (hsorted s)
  have hlt : ∀ u ∈ (f.state s).epsilons.toList, u < f.statecount := fun u hu => hwf.eps_lt hu
  rw [state_fsmRemovestate hx h, ← erase_map_eq_filterMap hnodup hlt x,
    ← toList_stateSetRemove (hsorted s) x]
  split
  · exact toList_stateSetReplace _ _ _
  · -- the last state is the one that was removed, so no destination is renamed
    have hkeep : ∀ u ∈ (stateSetRemove (f.state s).epsilons x).toList,
        (if u = f.statecount - 1 then x else u) = u := by
      intro u hu
      have hux : u ≠ x := ((mem_stateSetRemove (hsorted s) x u).mp hu).1
      exact if_neg (by omega)
    rw [map_congr_left hkeep, map_id']
    rfl

theorem eps_fsmRemovestate (hwf : f.Wf) (hsorted : f.EpsilonsSorted) (hx : x < f.statecount)
    (h : removedIndex f.statecount x s = some t) (u : ℕ) :
    (fsmRemovestate f x).Eps t u ↔
      ∃ s', f.Eps s s' ∧ removedIndex f.statecount x s' = some u := by
  show u ∈ ((fsmRemovestate f x).state t).epsilons.toList ↔ _
  rw [epsilons_fsmRemovestate hwf hsorted hx h, mem_filterMap]
  rfl

theorem isEnd_fsmRemovestate (hx : x < f.statecount) (h : removedIndex f.statecount x s = some t) :
    (fsmRemovestate f x).IsEnd t ↔ f.IsEnd s := by
  rw [Fsm.IsEnd, state_fsmRemovestate hx h]
  split <;> rfl

end Edges

/-! ## §5 When The Move Is Right -/

/-- What has to hold of the last state before it may move to index `x`: it is not the start
state, it has the IDs that the tables hold for `x`, and where it is an epsilon destination all
other destinations that stay are below `x`. -/
structure Fsm.LastMayMove (f : Fsm) (x : ℕ) : Prop where
  start : f.start ≠ some (f.statecount - 1)
  endids : f.endidInfo.get x = f.endidInfo.get (f.statecount - 1)
  eager : f.eagerOutputInfo.get x = f.eagerOutputInfo.get (f.statecount - 1)
  below : ∀ s, s ≠ x → f.Eps s (f.statecount - 1) →
    ∀ t, f.Eps s t → t ≠ x → t ≠ f.statecount - 1 → t < x

section Exact

variable {f : Fsm} {x : ℕ}

/-- The start state is renumbered unless it is the last state and that one moves. -/
theorem start_fsmRemovestate_iff (hwf : f.Wf) (hx : x < f.statecount) :
    (fsmRemovestate f x).start = f.start.bind (removedIndex f.statecount x) ↔
      (x < f.statecount - 1 → f.start ≠ some (f.statecount - 1)) := by
  rw [start_fsmRemovestate]
  cases hs : f.start with
  | none => simp
  | some s₀ =>
    have hlt : s₀ < f.statecount := hwf.start_lt hs
    simp only [ne_eq, Option.some.injEq, Option.bind_some]
    by_cases hsx : s₀ = x
    · rw [if_pos hsx, hsx, removedIndex_self]
      exact iff_of_true rfl fun h => by omega
    · rw [if_neg hsx, eq_comm, removedIndex_eq_some]
      split <;> omega

/-- A table that is left alone goes with the states exactly if the state that moves has the IDs
of the one it replaces. -/
theorem get_removedIndex_iff (table : IdTable) (hx : x < n) :
    (∀ s t, removedIndex n x s = some t → table.get t = table.get s) ↔
      (x < n - 1 → table.get x = table.get (n - 1)) := by
  constructor
  · intro h hlt
    exact h _ _ (removedIndex_last hlt)
  · intro h s t hst
    obtain ⟨hs, hne, ht⟩ := removedIndex_eq_some.mp hst
    split at ht
    · rename_i hlast
      rw [← ht, hlast]
      exact h (by omega)
    · rw [ht]

/-- The renumbering keeps the order of a set of states exactly if the last state is not in it
or the others stay below the index it moves to. -/
theorem removedIndex_increasing_iff {l : List ℕ} (hx : x < n) (hlt : ∀ s ∈ l, s < n) :
    (∀ s ∈ l, ∀ t ∈ l, s < t → ∀ s' t', removedIndex n x s = some s' →
        removedIndex n x t = some t' → s' < t') ↔
      (x < n - 1 → n - 1 ∈ l → ∀ t ∈ l, t ≠ x → t ≠ n - 1 → t < x) := by
  constructor
  · intro h hmove hlast t ht htx htlast
    have htn : t < n := hlt t ht
    exact h t ht _ hlast (by omega) t x (removedIndex_ne_last htn htx htlast)
      (removedIndex_last hmove)
  · intro h s hs t ht hst s' t' hs' ht'
    obtain ⟨hsn, hsx, hs'⟩ := removedIndex_eq_some.mp hs'
    obtain ⟨htn, htx, ht'⟩ := removedIndex_eq_some.mp ht'
    -- the smaller of the two is not the last state, so it keeps its number
    rw [if_neg (by omega)] at hs'
    split at ht'
    · rename_i hlast
      have : s < x := h (by omega) (hlast ▸ ht) s hs hsx (by omega)
      omega
    · omega

/-- The epsilon sets stay ascending exactly if each set is one the renumbering keeps in
order. -/
theorem sorted_fsmRemovestate_iff (hwf : f.Wf) (hsorted : f.EpsilonsSorted)
    (hx : x < f.statecount) :
    (fsmRemovestate f x).EpsilonsSorted ↔
      (x < f.statecount - 1 → ∀ s, s ≠ x → f.Eps s (f.statecount - 1) →
        ∀ t, f.Eps s t → t ≠ x → t ≠ f.statecount - 1 → t < x) := by
  -- one state that stays, at its old and at its new number
  have hstate : ∀ {s t}, removedIndex f.statecount x s = some t →
      (((fsmRemovestate f x).state t).epsilons.Sorted ↔
        (x < f.statecount - 1 → f.Eps s (f.statecount - 1) →
          ∀ t, f.Eps s t → t ≠ x → t ≠ f.statecount - 1 → t < x)) := by
    intro s t h
    have hlt : ∀ u ∈ (f.state s).epsilons.toList, u < f.statecount := fun u hu => hwf.eps_lt hu
    rw [StateSet.Sorted, epsilons_fsmRemovestate hwf hsorted hx h,
      pairwise_filterMap_iff (hsorted s)]
    exact removedIndex_increasing_iff hx hlt
  constructor
  · intro h hmove s hsx heps
    have hs : s < f.statecount := heps.source_lt
    obtain ⟨t, ht⟩ : ∃ t, removedIndex f.statecount x s = some t :=
      ⟨_, removedIndex_eq_some.mpr ⟨hs, hsx, rfl⟩⟩
    exact (hstate ht).mp (h t) hmove heps
  · intro h
    apply epsilonsSorted_of_lt
    intro t ht
    have hold := removedIndex_onto hx (by simpa using ht)
    obtain ⟨-, hne, -⟩ := removedIndex_eq_some.mp hold
    exact (hstate hold).mpr fun hmove => h hmove _ hne

/-- **`fsm_removestate` deletes one state and nothing else** exactly if the removed state is
the last one, or the last state may move to its index. -/
theorem fsmRemovestate_exact_iff (hwf : f.Wf) (hsorted : f.EpsilonsSorted)
    (hx : x < f.statecount) :
    StateRemoved f (fsmRemovestate f x) (removedIndex f.statecount x) ↔
      (x < f.statecount - 1 → f.LastMayMove x) := by
  have hstart := start_fsmRemovestate_iff hwf hx
  have hendids := get_removedIndex_iff f.endidInfo hx
  have heager := get_removedIndex_iff f.eagerOutputInfo hx
  have heps := sorted_fsmRemovestate_iff hwf hsorted hx
  constructor
  · intro h hmove
    exact {
      start := hstart.mp h.start hmove
      endids := hendids.mp (fun s t hst => by simpa using h.endids hst) hmove
      eager := heager.mp (fun s t hst => by simpa using h.eager hst) hmove
      below := heps.mp h.sorted hmove }
  · intro h
    exact {
      statecount := by
        rw [statecount_fsmRemovestate]
        omega
      inj := removedIndex_inj
      lt := fun hst => by simpa using removedIndex_lt hx hst
      onto := fun ht => ⟨_, removedIndex_onto hx (by simpa using ht)⟩
      edge := fun hst => edge_fsmRemovestate hwf hx hst
      eps := fun hst => eps_fsmRemovestate hwf hsorted hx hst
      isEnd := fun hst => isEnd_fsmRemovestate hx hst
      start := hstart.mpr fun hmove => (h hmove).start
      endids := fun hst => by simpa using hendids.mpr (fun hmove => (h hmove).endids) _ _ hst
      eager := fun hst => by simpa using heager.mpr (fun hmove => (h hmove).eager) _ _ hst
      sorted := heps.mpr fun hmove => (h hmove).below }

/-- States 0 to 3 with epsilon edges from 0 to 2 and 3, where the last state starts. -/
def fourStatesFsm : Fsm :=
  { states := [{ epsilons := .array [2, 3] }, {}, {}, { isEnd := true }], endcount := 1,
    start := some 3, endidInfo := AList.singleton 3 [7] }

/-- Removing state 1 leaves the start at 3, which is no state any more; the array of epsilon
destinations becomes 2, 1, and the moved state loses its end ID. -/
theorem fsmRemovestate_start_dangles :
    fourStatesFsm.Wf ∧ fourStatesFsm.EpsilonsSorted ∧
      (fsmRemovestate fourStatesFsm 1).start = some (fsmRemovestate fourStatesFsm 1).statecount ∧
      ((fsmRemovestate fourStatesFsm 1).state 0).epsilons.toList = [2, 1] ∧
      (fsmRemovestate fourStatesFsm 1).endidInfo.get 1 = [] ∧
      ¬StateRemoved fourStatesFsm (fsmRemovestate fourStatesFsm 1)
        (removedIndex fourStatesFsm.statecount 1) := by
  have hstart : (fsmRemovestate fourStatesFsm 1).start = some 3 := by decide
  refine ⟨Fsm.wf_of_wfCheck (by decide), epsilonsSorted_of_lt (by decide), by decide, by decide,
    by decide, fun h => ?_⟩
  have himage := h.start.symm.trans hstart
  revert himage
  decide

/-- States 0 to 2 with epsilon edges from 0 to 0 and 2. -/
def threeStatesFsm : Fsm :=
  { states := [{ epsilons := .array [0, 2] }, {}, { isEnd := true }], endcount := 1,
    start := some 0 }

/-- State 2 may move to index 1: the destinations 0, 2 become 0, 1. -/
theorem fsmRemovestate_exact_iff_threeStates :
    StateRemoved threeStatesFsm (fsmRemovestate threeStatesFsm 1)
      (removedIndex threeStatesFsm.statecount 1) := by
  have hsorted : threeStatesFsm.EpsilonsSorted := epsilonsSorted_of_lt (by decide)
  refine (fsmRemovestate_exact_iff (Fsm.wf_of_wfCheck (by decide)) hsorted (by decide)).mpr
    fun _ => ⟨by decide, by decide, by decide, ?_⟩
  intro s hne heps t ht htx htlast
  have hwf : threeStatesFsm.Wf := Fsm.wf_of_wfCheck (by decide)
  have hlt : t < 3 := hwf.eps_lt ht
  have hlast : t ≠ 2 := htlast
  omega

end Exact

end Libfsm
