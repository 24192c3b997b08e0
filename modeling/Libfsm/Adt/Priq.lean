import Libfsm.Adt.EdgeSet
import Libfsm.Lib.LeastCost

/-!
# Priority Queues

`adt/priq.c`: nodes in a linked list in order of their costs, and the operations of
`fsm_shortest` on them.  A node is named by its state, of which there is one in all lists.

- `priqPush`, `priqPop`, `priqUpdate`, `priqFind`, `priqMove`: the operations
- `PriqOrdered`: cheap nodes first, and among those that cost `UINT_MAX` the larger states first
- `PriqOrdered.insert`: insertion keeps that
-/

namespace Libfsm

open Lib
open List hiding nil cons

variable {s : ℕ}

/-! ## §1 The Operations -/

/-- `FSM_COST_INFINITY`, `UINT_MAX` -/
def fsmCostInfinity : ℕ := 2 ^ 32 - 1

/-- `struct priq`, without the link to the next node. -/
structure PriqNode where
  cost : ℕ
  state : ℕ
  /-- The state of the previous node on the path; NULL is none -/
  prev : Option ℕ := none
  c : Byte := 0
  deriving DecidableEq, Repr

/-- The node stands before the first one that does not cost less. -/
def priqInsert (priq : List PriqNode) (s : PriqNode) : List PriqNode :=
  priq.orderedInsert (fun a b => a.cost ≤ b.cost) s

def priqPush (priq : List PriqNode) (state cost : ℕ) : List PriqNode :=
  priqInsert priq { cost := cost, state := state }

def priqPop : List PriqNode → Option (PriqNode × List PriqNode)
  | [] => none
  | p :: priq => some (p, priq)

/-- `priq_update`, with a node whose fields are written already. -/
def priqUpdate (priq : List PriqNode) (s : PriqNode) : List PriqNode :=
  priqInsert (priq.eraseP fun p => p.state = s.state) s

def priqFind (priq : List PriqNode) (state : ℕ) : Option PriqNode :=
  priq.find? fun p => p.state = state

def priqMove (priq : List PriqNode) (new : PriqNode) : List PriqNode := new :: priq

/-! ## §2 The Nodes -/

variable {priq : List PriqNode} {v : PriqNode}

theorem priqInsert_perm (priq : List PriqNode) (s : PriqNode) :
    (priqInsert priq s).Perm (s :: priq) :=
  perm_orderedInsert _ s priq

theorem mem_priqInsert {s x : PriqNode} : x ∈ priqInsert priq s ↔ x = s ∨ x ∈ priq :=
  mem_orderedInsert _

/-- The states of a list of nodes. -/
def priqStates (priq : List PriqNode) : List ℕ := priq.map PriqNode.state

theorem mem_priqStates : s ∈ priqStates priq ↔ ∃ v ∈ priq, v.state = s := mem_map

theorem node_eq_of_state_eq (hnodup : (priqStates priq).Nodup) {u : PriqNode} (hu : u ∈ priq)
    (hv : v ∈ priq) (h : u.state = v.state) : u = v :=
  inj_on_of_nodup_map hnodup hu hv h

theorem priqFind_eq_none_iff : priqFind priq s = none ↔ s ∉ priqStates priq := by
  rw [priqFind, mem_priqStates]
  simp

theorem mem_of_priqFind (h : priqFind priq s = some v) : v ∈ priq ∧ v.state = s :=
  ⟨mem_of_find?_eq_some h, by simpa using find?_some h⟩

theorem priqFind_of_mem (hnodup : (priqStates priq).Nodup) (hv : v ∈ priq) :
    priqFind priq v.state = some v := by
  cases hfind : priqFind priq v.state with
  | none => exact absurd (mem_priqStates.mpr ⟨v, hv, rfl⟩) (priqFind_eq_none_iff.mp hfind)
  | some u =>
    obtain ⟨hu, hstate⟩ := mem_of_priqFind hfind
    rw [node_eq_of_state_eq hnodup hu hv hstate]

/-- A node at the front does not hide those of other states. -/
theorem priqFind_priqMove {new : PriqNode} (h : new.state ≠ s) :
    priqFind (priqMove priq new) s = priqFind priq s := by
  rw [priqMove, priqFind, find?_cons_of_neg (by simpa using h), priqFind]

section Update

variable {priq : List PriqNode} {v s : PriqNode} (hv : v ∈ priq) (hstate : s.state = v.state)
include hv hstate

/-- The node that is taken out of the list. -/
theorem exists_eraseP_eq :
    ∃ u l₁ l₂, (∀ x ∈ l₁, x.state ≠ s.state) ∧ u.state = s.state ∧ priq = l₁ ++ u :: l₂ ∧
      (priq.eraseP fun p => p.state = s.state) = l₁ ++ l₂ := by
  obtain ⟨u, l₁, l₂, hl₁, hu, hpriq, herase⟩ :=
    exists_of_eraseP hv (p := fun p => decide (p.state = s.state)) (by simpa using hstate.symm)
  refine ⟨u, l₁, l₂, fun x hx => ?_, of_decide_eq_true hu, hpriq, herase⟩
  simpa using hl₁ x hx

theorem priqStates_priqUpdate : (priqStates (priqUpdate priq s)).Perm (priqStates priq) := by
  obtain ⟨u, l₁, l₂, -, hu, hpriq, herase⟩ := exists_eraseP_eq hv hstate
  refine ((priqInsert_perm _ s).map PriqNode.state).trans ?_
  rw [herase, hpriq, priqStates, map_cons, map_append, map_append, map_cons, hu]
  exact perm_middle.symm

theorem mem_priqUpdate (hnodup : (priqStates priq).Nodup) {x : PriqNode} :
    x ∈ priqUpdate priq s ↔ x = s ∨ (x ∈ priq ∧ x.state ≠ s.state) := by
  obtain ⟨u, l₁, l₂, hl₁, hu, hpriq, herase⟩ := exists_eraseP_eq hv hstate
  have hl₂ : ∀ x ∈ l₂, x.state ≠ s.state := by
    intro x hx heq
    rw [hpriq, priqStates, map_append, nodup_append] at hnodup
    have hnot := (nodup_cons.mp hnodup.2.1).1
    exact hnot (mem_map.mpr ⟨x, hx, heq.trans hu.symm⟩)
  rw [priqUpdate, mem_priqInsert, herase, hpriq]
  apply or_congr_right
  simp only [mem_append, mem_cons]
  constructor
  · rintro (hx | hx)
    · exact ⟨.inl hx, hl₁ x hx⟩
    · exact ⟨.inr (.inr hx), hl₂ x hx⟩
  · rintro ⟨hx | rfl | hx, hne⟩
    · exact .inl hx
    · exact absurd hu hne
    · exact .inr hx

end Update

/-! ## §3 The Order -/

/-- Two nodes in the order of the list: the first one does not cost more, and of two that cost
`UINT_MAX` it has the larger state. -/
def PriqBefore (a b : PriqNode) : Prop :=
  a.cost ≤ b.cost ∧ (a.cost = fsmCostInfinity → b.state < a.state)

/-- The order of the list. -/
structure PriqOrdered (priq : List PriqNode) : Prop where
  before : priq.Pairwise PriqBefore
  le_infinity : ∀ v ∈ priq, v.cost ≤ fsmCostInfinity

theorem PriqOrdered.sublist {priq' : List PriqNode} (h : PriqOrdered priq)
    (hsub : priq'.Sublist priq) : PriqOrdered priq' :=
  ⟨h.before.sublist hsub, fun v hv => h.le_infinity v (hsub.subset hv)⟩

/-- Insertion of a node that is cheap, or larger than all others. -/
theorem PriqOrdered.insert (h : PriqOrdered priq) {s : PriqNode} (hs : s.cost ≤ fsmCostInfinity)
    (hlarge : s.cost = fsmCostInfinity → ∀ v ∈ priq, v.state < s.state) :
    PriqOrdered (priqInsert priq s) := by
  refine ⟨pairwise_orderedInsert h.before ?_ ?_ ?_, fun v hv => ?_⟩
  · intro x _ hlt
    exact ⟨by omega, fun hx => by omega⟩
  · exact fun x hx hle => ⟨hle, fun hinf => hlarge hinf x hx⟩
  · exact fun x _ y _ hle hxy => hle.trans hxy.1
  · rcases mem_priqInsert.mp hv with rfl | hv
    · exact hs
    · exact h.le_infinity v hv

theorem PriqOrdered.update (h : PriqOrdered priq) {s : PriqNode} (hs : s.cost < fsmCostInfinity) :
    PriqOrdered (priqUpdate priq s) :=
  (h.sublist eraseP_sublist).insert hs.le fun hinf => absurd hinf hs.ne

end Libfsm
