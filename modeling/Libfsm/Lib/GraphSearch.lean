import Mathlib.Data.Finset.Card
import Mathlib.Logic.Function.Basic
import Mathlib.Logic.Relation
import Mathlib.Tactic

/-!
# Worklist Search in a Graph

A search that keeps a mark for each node and a list of nodes still to expand, and collects
something along the way.  The order of expansion is that of a queue or of a stack.

- `Walk.run`: the search loop, with fuel
- `Walk.order`: the nodes in the order they were expanded
- `Walk.marks_run`: marks at the end = marks at the beginning, and what is reachable through
  nodes that were not marked
- `Walk.mem_order`: the nodes expanded
- `Walk.finished_of_potential_le`: the fuel that suffices
- `distWalk_run`, `marks_distWalk_run`: breadth-first search finds the shortest distances
-/

namespace Libfsm.Lib

open Function
open List hiding nil cons

variable {σ β : Type*} [DecidableEq σ]

variable {pending rest : List σ} {x y z : σ} {d fuel : ℕ} {U : Finset σ}

/-! ## §1 The Search -/

/-- Where a new node goes in the list of nodes to expand. -/
inductive Discipline where
  | queue
  | stack

/-- Add a node to the list of nodes to expand. -/
def Discipline.put (d : Discipline) (pending : List σ) (y : σ) : List σ :=
  match d with
  | .queue => pending ++ [y]
  | .stack => y :: pending

omit [DecidableEq σ] in
@[simp] theorem Discipline.mem_put {d : Discipline} :
    z ∈ d.put pending y ↔ z ∈ pending ∨ z = y := by
  cases d <;> simp [Discipline.put, or_comm]

omit [DecidableEq σ] in
@[simp] theorem Discipline.length_put {d : Discipline} :
    (d.put pending y).length = pending.length + 1 := by
  cases d <;> simp [Discipline.put]

/-- A graph, an order of expansion, and what to collect at each node and at each edge. -/
structure Walk (σ β : Type*) where
  discipline : Discipline
  succ : σ → List σ
  /-- Called when a node is expanded -/
  visit : β → σ → β
  /-- Called at each edge of a node that is expanded -/
  relax : β → σ → σ → β

/-- The state of a search. -/
structure SearchState (σ β : Type*) where
  marks : σ → Bool
  pending : List σ
  acc : β

variable {st : SearchState σ β}

namespace Walk

variable (W : Walk σ β)

/-- One edge: an unmarked node is marked and has to be expanded later. -/
def touch (x : σ) (st : SearchState σ β) (y : σ) : SearchState σ β :=
  if st.marks y then { st with acc := W.relax st.acc x y }
  else
    { marks := update st.marks y true
      pending := W.discipline.put st.pending y
      acc := W.relax st.acc x y }

/-- Expand `x`, which has been taken off the list. -/
def expand (st : SearchState σ β) (x : σ) (rest : List σ) : SearchState σ β :=
  (W.succ x).foldl (W.touch x) { st with pending := rest, acc := W.visit st.acc x }

/-- Expand nodes until there are none left. -/
def run : ℕ → SearchState σ β → SearchState σ β
  | 0, st => st
  | fuel + 1, st =>
    match st.pending with
    | [] => st
    | x :: rest => run fuel (W.expand st x rest)

/-- The nodes in the order of their expansion. -/
def order : ℕ → SearchState σ β → List σ
  | 0, _ => []
  | fuel + 1, st =>
    match st.pending with
    | [] => []
    | x :: rest => x :: order fuel (W.expand st x rest)

/-- `z` can be reached from a pending node through nodes that are not marked. -/
def Reach (succ : σ → List σ) (marks : σ → Bool) (pending : List σ) (z : σ) : Prop :=
  ∃ p ∈ pending, Relation.ReflTransGen (fun a b => b ∈ succ a ∧ marks b = false) p z

variable {W}

/-! ## §2 One Expansion -/

theorem marks_touch : (W.touch x st y).marks z = true ↔ st.marks z = true ∨ z = y := by
  unfold touch
  split
  · rename_i hy
    refine ⟨.inl, fun h => h.elim id ?_⟩
    exact fun hz => hz ▸ hy
  · by_cases hz : z = y
    · simp [hz]
    · simp [hz]

theorem mem_pending_touch :
    z ∈ (W.touch x st y).pending ↔ z ∈ st.pending ∨ (z = y ∧ st.marks y = false) := by
  unfold touch
  split
  · rename_i hy
    simp [hy]
  · rename_i hy
    simp [hy]

/-- The marks after a scan over some of the edges. -/
theorem marks_foldl_touch (ys : List σ) (st : SearchState σ β) :
    (ys.foldl (W.touch x) st).marks z = true ↔ st.marks z = true ∨ z ∈ ys := by
  induction ys generalizing st with
  | nil => simp
  | cons y ys ih => rw [foldl_cons, ih, marks_touch, mem_cons, or_assoc]

theorem mem_pending_foldl_touch (ys : List σ) (st : SearchState σ β) :
    z ∈ (ys.foldl (W.touch x) st).pending ↔
      z ∈ st.pending ∨ (z ∈ ys ∧ st.marks z = false) := by
  induction ys generalizing st with
  | nil => simp
  | cons y ys ih =>
    rw [foldl_cons, ih, mem_pending_touch, ← Bool.not_eq_true,
      ← Bool.not_eq_true, marks_touch, or_assoc]
    by_cases hz : z = y
    · subst hz
      simp
    · simp [hz]

theorem acc_foldl_touch (ys : List σ) (st : SearchState σ β) :
    (ys.foldl (W.touch x) st).acc = ys.foldl (fun acc y => W.relax acc x y) st.acc := by
  induction ys generalizing st with
  | nil => rfl
  | cons y ys ih =>
    rw [foldl_cons, ih, foldl_cons]
    have hacc : (W.touch x st y).acc = W.relax st.acc x y := by
      unfold touch
      split <;> rfl
    rw [hacc]

theorem marks_expand : (W.expand st x rest).marks z = true ↔ st.marks z = true ∨ z ∈ W.succ x :=
  marks_foldl_touch _ _

theorem mem_pending_expand :
    z ∈ (W.expand st x rest).pending ↔ z ∈ rest ∨ (z ∈ W.succ x ∧ st.marks z = false) :=
  mem_pending_foldl_touch _ _

theorem acc_expand :
    (W.expand st x rest).acc =
      (W.succ x).foldl (fun acc y => W.relax acc x y) (W.visit st.acc x) :=
  acc_foldl_touch _ _

theorem pending_marked_expand (hst : st.pending = x :: rest)
    (hmarked : ∀ p ∈ st.pending, st.marks p = true) :
    ∀ p ∈ (W.expand st x rest).pending, (W.expand st x rest).marks p = true := by
  intro p hp
  rw [marks_expand]
  rcases mem_pending_expand.mp hp with hp | ⟨hp, -⟩
  · exact .inl (hmarked p (hst ▸ mem_cons_of_mem x hp))
  · exact .inr hp

/-- What is reachable before an expansion is the node expanded and what is reachable after. -/
theorem reach_expand :
    Reach W.succ st.marks (x :: rest) z ↔
      z = x ∨ Reach W.succ (W.expand st x rest).marks (W.expand st x rest).pending z := by
  have hmarks : ∀ b, (W.expand st x rest).marks b = false ↔
      st.marks b = false ∧ b ∉ W.succ x := by
    intro b
    rw [← Bool.not_eq_true, marks_expand, not_or, Bool.not_eq_true]
  constructor
  · -- follow the path, and start again at each node the expansion has marked
    intro ⟨p, hp, hpath⟩
    induction hpath with
    | refl =>
      rcases mem_cons.mp hp with hp | hp
      · exact .inl hp
      · exact .inr ⟨p, mem_pending_expand.mpr (.inl hp), .refl⟩
    | @tail b c _ hbc ih =>
      obtain ⟨hc, hcm⟩ := hbc
      right
      by_cases hcx : c ∈ W.succ x
      · exact ⟨c, mem_pending_expand.mpr (.inr ⟨hcx, hcm⟩), .refl⟩
      · rcases ih with rfl | ⟨q, hq, hqb⟩
        · exact absurd hc hcx
        · exact ⟨q, hq, hqb.tail ⟨hc, (hmarks c).mpr ⟨hcm, hcx⟩⟩⟩
  · intro h
    rcases h with rfl | ⟨p, hp, hpath⟩
    · exact ⟨z, mem_cons_self, .refl⟩
    · have hpath' : Relation.ReflTransGen (fun a b => b ∈ W.succ a ∧ st.marks b = false) p z :=
        hpath.lift id fun a b hab => ⟨hab.1, ((hmarks b).mp hab.2).1⟩
      rcases mem_pending_expand.mp hp with hp | ⟨hp, hpm⟩
      · exact ⟨p, mem_cons_of_mem x hp, hpath'⟩
      · exact ⟨x, mem_cons_self, .head ⟨hp, hpm⟩ hpath'⟩

/-! ## §3 Whole Runs -/

/-- A run is finished when its fuel left no node to expand. -/
def Finished (W : Walk σ β) (fuel : ℕ) (st : SearchState σ β) : Prop :=
  (W.run fuel st).pending = []

theorem run_of_pending_nil (h : st.pending = []) : W.run fuel st = st := by
  cases fuel with
  | zero => rfl
  | succ fuel => rw [run, h]

theorem run_succ_of_pending (h : st.pending = x :: rest) :
    W.run (fuel + 1) st = W.run fuel (W.expand st x rest) := by
  rw [run, h]

theorem order_succ_of_pending (h : st.pending = x :: rest) :
    W.order (fuel + 1) st = x :: W.order fuel (W.expand st x rest) := by
  rw [order, h]

theorem order_of_pending_nil (h : st.pending = []) : W.order fuel st = [] := by
  cases fuel with
  | zero => rfl
  | succ fuel => rw [order, h]

/-- An invariant of single expansions is an invariant of runs. -/
theorem run_invariant {P : SearchState σ β → Prop}
    (step : ∀ st x rest, st.pending = x :: rest → P st → P (W.expand st x rest))
    (fuel : ℕ) (st : SearchState σ β) (h : P st) : P (W.run fuel st) := by
  induction fuel generalizing st with
  | zero => exact h
  | succ fuel ih =>
    cases hp : st.pending with
    | nil =>
      rw [run_of_pending_nil hp]
      exact h
    | cons x rest =>
      rw [run_succ_of_pending hp]
      exact ih _ (step st x rest hp h)

/-- What is collected depends only on the order of expansion. -/
theorem acc_run (fuel : ℕ) (st : SearchState σ β) :
    (W.run fuel st).acc = (W.order fuel st).foldl
      (fun acc x => (W.succ x).foldl (fun acc y => W.relax acc x y) (W.visit acc x)) st.acc := by
  induction fuel generalizing st with
  | zero => rfl
  | succ fuel ih =>
    cases hp : st.pending with
    | nil => rw [run_of_pending_nil hp, order_of_pending_nil hp, foldl_nil]
    | cons x rest =>
      rw [run_succ_of_pending hp, order_succ_of_pending hp, ih, foldl_cons, acc_expand]

/-- What is collected, when nothing is collected at edges. -/
theorem acc_run_of_relax (h : ∀ acc x y, W.relax acc x y = acc) (fuel : ℕ)
    (st : SearchState σ β) : (W.run fuel st).acc = (W.order fuel st).foldl W.visit st.acc := by
  have hbody : (fun acc x => (W.succ x).foldl (fun acc y => W.relax acc x y) (W.visit acc x)) =
      W.visit := by
    funext acc x
    simp only [h]
    induction W.succ x with
    | nil => rfl
    | cons y ys ih => exact ih
  rw [acc_run, hbody]

omit [DecidableEq σ] in
private theorem not_reach_nil {succ : σ → List σ} {marks : σ → Bool} : ¬ Reach succ marks [] z := by
  intro ⟨p, hp, _⟩
  exact not_mem_nil hp

/-- **The nodes expanded** are the reachable ones. -/
theorem mem_order (hfin : W.Finished fuel st) :
    z ∈ W.order fuel st ↔ Reach W.succ st.marks st.pending z := by
  induction fuel generalizing st with
  | zero =>
    have hp : st.pending = [] := hfin
    rw [hp]
    exact iff_of_false not_mem_nil not_reach_nil
  | succ fuel ih =>
    cases hp : st.pending with
    | nil =>
      rw [order_of_pending_nil hp]
      exact iff_of_false not_mem_nil not_reach_nil
    | cons x rest =>
      rw [Finished, run_succ_of_pending hp] at hfin
      rw [order_succ_of_pending hp, mem_cons, ih hfin, reach_expand]

/-- **The nodes marked** are those marked before and the reachable ones. -/
theorem marks_run (hfin : W.Finished fuel st) (hmarked : ∀ p ∈ st.pending, st.marks p = true) :
    (W.run fuel st).marks z = true ↔
      st.marks z = true ∨ Reach W.succ st.marks st.pending z := by
  induction fuel generalizing st with
  | zero =>
    have hp : st.pending = [] := hfin
    rw [hp]
    simp [run, not_reach_nil]
  | succ fuel ih =>
    cases hp : st.pending with
    | nil => simp [run_of_pending_nil hp, not_reach_nil]
    | cons x rest =>
      rw [Finished, run_succ_of_pending hp] at hfin
      rw [run_succ_of_pending hp, ih hfin (pending_marked_expand hp hmarked), reach_expand,
        marks_expand, or_assoc]
      have hx : st.marks x = true := hmarked x (hp ▸ mem_cons_self)
      constructor
      · rintro (hz | hz | hz)
        · exact .inl hz
        · -- a successor of the node is marked already or becomes pending
          by_cases hzm : st.marks z = true
          · exact .inl hzm
          · refine .inr (.inr ⟨z, mem_pending_expand.mpr (.inr ⟨hz, ?_⟩), .refl⟩)
            exact Bool.not_eq_true _ ▸ hzm
        · exact .inr (.inr hz)
      · rintro (hz | rfl | hz)
        · exact .inl hz
        · exact .inl hx
        · exact .inr (.inr hz)

omit [DecidableEq σ] in
/-- When only pending nodes are marked, the marks do not hide anything. -/
theorem reach_iff_of_marks {succ : σ → List σ} {marks : σ → Bool}
    (hmarks : ∀ z, marks z = true → z ∈ pending) :
    Reach succ marks pending z ↔
      ∃ p ∈ pending, Relation.ReflTransGen (fun a b => b ∈ succ a) p z := by
  constructor
  · intro ⟨p, hp, hpath⟩
    exact ⟨p, hp, hpath.lift id fun a b hab => hab.1⟩
  · intro ⟨p, hp, hpath⟩
    induction hpath with
    | refl => exact ⟨p, hp, .refl⟩
    | @tail b c _ hbc ih =>
      cases hc : marks c with
      | true => exact ⟨c, hmarks c hc, .refl⟩
      | false =>
        obtain ⟨q, hq, hqb⟩ := ih
        exact ⟨q, hq, hqb.tail ⟨hbc, hc⟩⟩

/-! ### Fuel -/

/-- The number of expansions left: the pending nodes and those that may become so. -/
def potential (U : Finset σ) (st : SearchState σ β) : ℕ :=
  st.pending.length + (U.filter fun z => st.marks z = false).card

omit [DecidableEq σ] in
theorem potential_le (U : Finset σ) (st : SearchState σ β) :
    potential U st ≤ st.pending.length + U.card :=
  Nat.add_le_add_left (Finset.card_filter_le U _) _

theorem potential_touch (hy : y ∈ U) : potential U (W.touch x st y) ≤ potential U st := by
  unfold touch
  split
  · exact le_refl _
  · rename_i hm
    have hlt : (U.filter fun z => update st.marks y true z = false) ⊂
        U.filter fun z => st.marks z = false := by
      refine Finset.ssubset_iff_subset_ne.mpr ⟨?_, ?_⟩
      · intro z hz
        rw [Finset.mem_filter] at hz ⊢
        by_cases hzy : z = y
        · simp [hzy] at hz
        · rw [update_of_ne hzy] at hz
          exact hz
      · intro heq
        have hmem : y ∈ U.filter fun z => st.marks z = false :=
          Finset.mem_filter.mpr ⟨hy, Bool.not_eq_true _ ▸ hm⟩
        rw [← heq] at hmem
        simp at hmem
    have hcard := Finset.card_lt_card hlt
    show (W.discipline.put st.pending y).length + _ ≤ st.pending.length + _
    rw [Discipline.length_put]
    dsimp only
    omega

theorem potential_foldl_touch (ys : List σ) (hys : ∀ y ∈ ys, y ∈ U) (st : SearchState σ β) :
    potential U (ys.foldl (W.touch x) st) ≤ potential U st := by
  induction ys generalizing st with
  | nil => exact le_refl _
  | cons y ys ih =>
    calc potential U (ys.foldl (W.touch x) (W.touch x st y))
        ≤ potential U (W.touch x st y) := ih (fun z hz => hys z (mem_cons_of_mem y hz)) _
      _ ≤ potential U st := potential_touch (hys y mem_cons_self)

/-- An expansion takes one node off. -/
theorem potential_expand (hp : st.pending = x :: rest) (hU : ∀ y ∈ W.succ x, y ∈ U) :
    potential U (W.expand st x rest) + 1 ≤ potential U st := by
  have hle := potential_foldl_touch (W := W) (x := x) (W.succ x) hU
    { st with pending := rest, acc := W.visit st.acc x }
  unfold expand
  unfold potential at hle ⊢
  rw [hp, length_cons]
  dsimp only at hle ⊢
  omega

/-- A run that stays in a finite set finishes with fuel for each pending node and each node
of the set. -/
theorem finished_of_potential_le (hU : ∀ x ∈ U, ∀ y ∈ W.succ x, y ∈ U)
    (hpending : ∀ p ∈ st.pending, p ∈ U) (hfuel : potential U st ≤ fuel) : W.Finished fuel st := by
  induction fuel generalizing st with
  | zero =>
    have hlen : st.pending.length = 0 := by
      unfold potential at hfuel
      omega
    exact length_eq_zero_iff.mp hlen
  | succ fuel ih =>
    cases hp : st.pending with
    | nil =>
      rw [Finished, run_of_pending_nil hp]
      exact hp
    | cons x rest =>
      have hx : x ∈ U := hpending x (hp ▸ mem_cons_self)
      rw [Finished, run_succ_of_pending hp]
      apply ih
      · intro p hmem
        rcases mem_pending_expand.mp hmem with hmem | ⟨hmem, -⟩
        · exact hpending p (hp ▸ mem_cons_of_mem x hmem)
        · exact hU x hx p hmem
      · have hle := potential_expand hp (hU x hx)
        omega

/-- The same among the numbers below `n`. -/
theorem finished_of_lt {W : Walk ℕ β} {st : SearchState ℕ β} {n : ℕ}
    (hsucc : ∀ x, ∀ y ∈ W.succ x, y < n) (hpending : ∀ p ∈ st.pending, p < n)
    (hfuel : st.pending.length + n ≤ fuel) : W.Finished fuel st := by
  refine finished_of_potential_le (U := Finset.range n) ?_ ?_ ?_
  · exact fun x _ y hy => Finset.mem_range.mpr (hsucc x y hy)
  · exact fun p hp => Finset.mem_range.mpr (hpending p hp)
  · refine (potential_le _ _).trans ?_
    rwa [Finset.card_range]

end Walk

/-! ## §4 Shortest Distances -/

/-- Improve the distance of `y` by way of `x`; `none` is no distance yet. -/
def relaxDist (dist : σ → Option ℕ) (x y : σ) : σ → Option ℕ :=
  match dist x with
  | none => dist
  | some d =>
    match dist y with
    | none => update dist y (some (d + 1))
    | some e => if d < e then update dist y (some (d + 1)) else dist

/-- Breadth-first search that keeps distances. -/
def distWalk (succ : σ → List σ) : Walk σ (σ → Option ℕ) where
  discipline := .queue
  succ := succ
  visit dist _ := dist
  relax := relaxDist

/-- The distances form layers, and the queue holds at most two of them, in order. -/
structure Layered (succ : σ → List σ) (sources : List σ)
    (st : SearchState σ (σ → Option ℕ)) : Prop where
  marked : ∀ z, st.marks z = true ↔ (st.acc z).isSome = true
  pending : ∀ p ∈ st.pending, st.marks p = true
  sorted : st.pending.Pairwise fun a b => ∀ i j, st.acc a = some i → st.acc b = some j → i ≤ j
  window : ∀ p ∈ st.pending, ∀ i, st.acc p = some i → ∀ z j, st.acc z = some j → j ≤ i + 1
  done : ∀ x i, st.acc x = some i → x ∉ st.pending →
    ∀ y ∈ succ x, ∃ j, st.acc y = some j ∧ j ≤ i + 1
  source : ∀ p ∈ sources, st.acc p = some 0
  back : ∀ y j, st.acc y = some j →
    (j = 0 ∧ y ∈ sources) ∨ ∃ x i, st.acc x = some i ∧ y ∈ succ x ∧ j = i + 1

section Distances

variable {succ : σ → List σ} {sources : List σ}

/-- While `x` is expanded, only unmarked nodes get a distance, one more than that of `x`. -/
private theorem acc_touch_distWalk (succ : σ → List σ) {st : SearchState σ (σ → Option ℕ)}
    (hmarked : ∀ z, st.marks z = true ↔ (st.acc z).isSome = true) (hx : st.acc x = some d)
    (hwindow : ∀ z j, st.acc z = some j → j ≤ d + 1) :
    ((distWalk succ).touch x st y).acc =
      if st.marks y then st.acc else update st.acc y (some (d + 1)) := by
  have hacc : ((distWalk succ).touch x st y).acc = relaxDist st.acc x y := by
    unfold Walk.touch
    split <;> rfl
  rw [hacc, relaxDist, hx]
  cases hy : st.acc y with
  | none =>
    have hm : ¬ st.marks y = true := by
      rw [hmarked, hy]
      exact Bool.false_ne_true
    rw [if_neg hm]
  | some e =>
    have hm : st.marks y = true := by
      rw [hmarked, hy]
      rfl
    dsimp only
    split
    · -- the old distance is already `d + 1`
      have he : e = d + 1 := le_antisymm (hwindow y e hy) (by assumption)
      rw [← he, ← hy, update_eq_self]
    · rfl

/-- The scan over the edges of `x`, in closed form. -/
private theorem foldl_touch_distWalk (succ : σ → List σ) (ys : List σ)
    (st : SearchState σ (σ → Option ℕ))
    (hmarked : ∀ z, st.marks z = true ↔ (st.acc z).isSome = true) (hx : st.acc x = some d)
    (hwindow : ∀ z j, st.acc z = some j → j ≤ d + 1) :
    (∀ z, (ys.foldl ((distWalk succ).touch x) st).acc z =
      if z ∈ ys ∧ st.marks z = false then some (d + 1) else st.acc z) ∧
    ∃ new, (ys.foldl ((distWalk succ).touch x) st).pending = st.pending ++ new ∧
      ∀ z ∈ new, z ∈ ys ∧ st.marks z = false := by
  induction ys generalizing st with
  | nil => exact ⟨by simp, [], by simp⟩
  | cons y ys ih =>
    have hacc := acc_touch_distWalk succ (y := y) hmarked hx hwindow
    by_cases hy : st.marks y = true
    -- a marked node is at most one step further away, so nothing improves
    · have htouch : (distWalk succ).touch x st y = st := by
        rw [if_pos hy] at hacc
        unfold Walk.touch at hacc ⊢
        rw [if_pos hy] at hacc ⊢
        cases st
        simpa using hacc
      rw [foldl_cons, htouch]
      obtain ⟨h₁, new, h₂, h₃⟩ := ih st hmarked hx hwindow
      refine ⟨fun z => ?_, new, h₂, fun z hz => ?_⟩
      · rw [h₁ z]
        by_cases hzy : z = y
        · simp [hzy, hy]
        · simp [hzy]
      · exact ⟨mem_cons_of_mem y (h₃ z hz).1, (h₃ z hz).2⟩
    -- an unmarked node enters the queue, and the scan goes on with it marked
    · rw [if_neg hy] at hacc
      have hxy : x ≠ y := by
        rintro rfl
        exact hy ((hmarked x).mpr (by rw [hx]; rfl))
      have hmarks : ∀ z, ((distWalk succ).touch x st y).marks z = true ↔
          st.marks z = true ∨ z = y := fun z => Walk.marks_touch
      have hpend : ((distWalk succ).touch x st y).pending = st.pending ++ [y] := by
        unfold Walk.touch
        rw [if_neg hy]
        rfl
      rw [foldl_cons]
      obtain ⟨h₁, new, h₂, h₃⟩ := ih ((distWalk succ).touch x st y)
        (by
          intro z
          rw [hmarks, hacc]
          by_cases hzy : z = y
          · simp [hzy]
          · rw [hmarked]
            simp [hzy])
        (by rw [hacc, update_of_ne hxy, hx])
        (by
          intro z j
          rw [hacc]
          by_cases hzy : z = y
          · rw [hzy, update_self]
            intro h
            exact (Option.some.inj h).ge
          · rw [update_of_ne hzy]
            exact hwindow z j)
      have hfalse : ∀ z, ((distWalk succ).touch x st y).marks z = false ↔
          st.marks z = false ∧ z ≠ y := by
        intro z
        rw [← Bool.not_eq_true, hmarks, not_or, Bool.not_eq_true]
      refine ⟨fun z => ?_, y :: new, ?_, ?_⟩
      · rw [h₁ z, hacc]
        by_cases hzy : z = y
        · have hyf : st.marks y = false := by simpa using hy
          simp [hzy, hfalse, hyf]
        · simp [hzy, hfalse]
      · rw [h₂, hpend, append_assoc, singleton_append]
      · intro z hz
        rcases mem_cons.mp hz with rfl | hz
        · exact ⟨mem_cons_self, by simpa using hy⟩
        · exact ⟨mem_cons_of_mem y (h₃ z hz).1, ((hfalse z).mp (h₃ z hz).2).1⟩

/-- What the expansion of `x` does, if `x` is first in the queue and has distance `d`. -/
structure Expansion (succ : σ → List σ) (st : SearchState σ (σ → Option ℕ)) (x : σ) (rest : List σ)
    (d : ℕ) (new : List σ) (st' : SearchState σ (σ → Option ℕ)) : Prop where
  first : st.pending = x :: rest
  dist : st.acc x = some d
  acc : ∀ z, st'.acc z = if z ∈ succ x ∧ st.marks z = false then some (d + 1) else st.acc z
  pending : st'.pending = rest ++ new
  new : ∀ z ∈ new, z ∈ succ x ∧ st.marks z = false
  mem_pending : ∀ z, z ∈ st'.pending ↔ z ∈ rest ∨ (z ∈ succ x ∧ st.marks z = false)

namespace Layered

variable {st st' : SearchState σ (σ → Option ℕ)} {new : List σ} (h : Layered succ sources st)
include h

omit [DecidableEq σ] in
theorem exists_dist (hz : st.marks z = true) : ∃ j, st.acc z = some j :=
  Option.isSome_iff_exists.mp ((h.marked z).mp hz)

theorem exists_expansion (hp : st.pending = x :: rest) :
    ∃ d new, Expansion succ st x rest d new ((distWalk succ).expand st x rest) := by
  have hx : x ∈ st.pending := hp ▸ mem_cons_self
  obtain ⟨d, hd⟩ := h.exists_dist (h.pending x hx)
  obtain ⟨hacc, new, hnew, hnew'⟩ := foldl_touch_distWalk succ (succ x) { st with pending := rest }
    h.marked hd (h.window x hx d hd)
  exact ⟨d, new, hp, hd, hacc, hnew, hnew', fun z => Walk.mem_pending_expand⟩

variable (he : Expansion succ st x rest d new st')
include he

theorem window_first {j : ℕ} (hz : st.acc z = some j) : j ≤ d + 1 :=
  h.window x (he.first ▸ mem_cons_self) d he.dist z j hz

/-- Distances found earlier stay as they are. -/
theorem acc_keep {j : ℕ} (hz : st.acc z = some j) : st'.acc z = some j := by
  have hm : st.marks z = true := (h.marked z).mpr (by rw [hz]; rfl)
  rw [he.acc, if_neg (by simp [hm]), hz]

omit h in
theorem acc_cases {j : ℕ} (hz : st'.acc z = some j) :
    (z ∈ succ x ∧ st.marks z = false ∧ j = d + 1) ∨ st.acc z = some j := by
  rw [he.acc] at hz
  split at hz
  · rename_i hz'
    exact .inl ⟨hz'.1, hz'.2, (Option.some.inj hz).symm⟩
  · exact .inr hz

/-- The nodes that stay in the queue keep their distance. -/
theorem acc_pending {j : ℕ} (hz : z ∈ rest) (hj : st'.acc z = some j) : st.acc z = some j := by
  obtain ⟨k, hk⟩ := h.exists_dist (h.pending z (he.first ▸ mem_cons_of_mem x hz))
  rw [hk, ← hj, h.acc_keep he hk]

omit h in
/-- The nodes that enter the queue are one further away than `x`. -/
theorem acc_new {j : ℕ} (hz : z ∈ new) (hj : st'.acc z = some j) : j = d + 1 := by
  rw [he.acc, if_pos (he.new z hz)] at hj
  exact (Option.some.inj hj).symm

theorem sorted_expand : st'.pending.Pairwise
    fun a b => ∀ i j, st'.acc a = some i → st'.acc b = some j → i ≤ j := by
  have hsorted := h.sorted
  rw [he.first, pairwise_cons] at hsorted
  rw [he.pending, pairwise_append]
  refine ⟨hsorted.2.imp_of_mem ?_, pairwise_of_forall_mem_list ?_, ?_⟩
  · intro a b ha hb hab i j hi hj
    exact hab i j (h.acc_pending he ha hi) (h.acc_pending he hb hj)
  · intro a ha b hb i j hi hj
    rw [acc_new he ha hi, acc_new he hb hj]
  · -- the layers in the queue before are at most the next one
    intro a ha b hb i j hi hj
    rw [acc_new he hb hj]
    exact h.window_first he (h.acc_pending he ha hi)

theorem window_expand {i j : ℕ} (hy : y ∈ st'.pending) (hi : st'.acc y = some i)
    (hz : st'.acc z = some j) : j ≤ i + 1 := by
  have hdi : d ≤ i := by
    rw [he.pending, mem_append] at hy
    rcases hy with hy | hy
    · have hsorted := h.sorted
      rw [he.first, pairwise_cons] at hsorted
      exact hsorted.1 y hy d i he.dist (h.acc_pending he hy hi)
    · exact (acc_new he hy hi).symm ▸ Nat.le_succ d
  rcases acc_cases he hz with ⟨-, -, hj⟩ | hz'
  · omega
  · have := h.window_first he hz'
    omega

theorem done_expand {i : ℕ} (hz : st'.acc z = some i) (hzp : z ∉ st'.pending) (hy : y ∈ succ z) :
    ∃ j, st'.acc y = some j ∧ j ≤ i + 1 := by
  rw [he.mem_pending, not_or] at hzp
  rcases acc_cases he hz with ⟨hzx, hzm, -⟩ | hz'
  · exact absurd ⟨hzx, hzm⟩ hzp.2
  · by_cases hzx : z = x
    · -- the successors of `x` have all been scanned
      obtain rfl : d = i := by
        rw [hzx, he.dist] at hz'
        exact Option.some.inj hz'
      cases hym : st.marks y with
      | true =>
        obtain ⟨j, hj⟩ := h.exists_dist hym
        exact ⟨j, h.acc_keep he hj, h.window_first he hj⟩
      | false => exact ⟨d + 1, by rw [he.acc, if_pos ⟨hzx ▸ hy, hym⟩], le_refl _⟩
    · have hzold : z ∉ st.pending := by
        rw [he.first, mem_cons, not_or]
        exact ⟨hzx, hzp.1⟩
      obtain ⟨j, hj, hle⟩ := h.done z i hz' hzold y hy
      exact ⟨j, h.acc_keep he hj, hle⟩

theorem back_expand {j : ℕ} (hj : st'.acc y = some j) :
    (j = 0 ∧ y ∈ sources) ∨ ∃ x i, st'.acc x = some i ∧ y ∈ succ x ∧ j = i + 1 := by
  rcases acc_cases he hj with ⟨hyx, -, rfl⟩ | hj'
  · exact .inr ⟨x, d, h.acc_keep he he.dist, hyx, rfl⟩
  · rcases h.back y j hj' with hsrc | ⟨a, i, hi, hya, hji⟩
    · exact .inl hsrc
    · exact .inr ⟨a, i, h.acc_keep he hi, hya, hji⟩

omit he

/-- **Step lemma**: expanding the first node of the queue keeps the layers. -/
theorem expand (hp : st.pending = x :: rest) :
    Layered succ sources ((distWalk succ).expand st x rest) := by
  obtain ⟨d, new, he⟩ := h.exists_expansion hp
  refine ⟨fun z => ?_, Walk.pending_marked_expand hp h.pending, h.sorted_expand he,
    fun y hy i hi z j hz => h.window_expand he hy hi hz,
    fun z i hz hzp y hy => h.done_expand he hz hzp hy,
    fun p hp' => h.acc_keep he (h.source p hp'), fun y j hj => h.back_expand he hj⟩
  rw [Walk.marks_expand, he.acc]
  show st.marks z = true ∨ z ∈ succ x ↔ _
  cases hz : st.marks z with
  | true => simpa using (h.marked z).mp hz
  | false =>
    have hnone : ¬ (st.acc z).isSome = true := by
      rw [← h.marked z, hz]
      exact Bool.false_ne_true
    by_cases hzx : z ∈ succ x
    · simp [hzx]
    · simpa [hzx] using hnone

end Layered

/-- Paths from a source, with their length. -/
inductive Steps (succ : σ → List σ) (sources : List σ) : ℕ → σ → Prop
  | source {p : σ} : p ∈ sources → Steps succ sources 0 p
  | step {n : ℕ} {x y : σ} : Steps succ sources n x → y ∈ succ x → Steps succ sources (n + 1) y

/-- The search from the sources, at distance 0. -/
def distInit (sources : List σ) : SearchState σ (σ → Option ℕ) where
  marks z := decide (z ∈ sources)
  pending := sources
  acc z := if z ∈ sources then some 0 else none

theorem layered_distInit : Layered succ sources (distInit sources) := by
  have hacc : ∀ z j, (distInit sources).acc z = some j → z ∈ sources ∧ j = 0 := by
    intro z j hz
    replace hz : (if z ∈ sources then some 0 else none) = some j := hz
    split at hz
    · exact ⟨by assumption, (Option.some.inj hz).symm⟩
    · cases hz
  refine ⟨?_, ?_, ?_, ?_, ?_, ?_, ?_⟩
  · intro z
    by_cases hz : z ∈ sources <;> simp [distInit, hz]
  · exact fun p hp => decide_eq_true hp
  · refine pairwise_of_forall_mem_list ?_
    intro a _ b _ i j hi hj
    rw [(hacc a i hi).2, (hacc b j hj).2]
  · intro p _ i _ z j hz
    rw [(hacc z j hz).2]
    exact Nat.zero_le _
  · exact fun x i hx hnot => absurd (hacc x i hx).1 hnot
  · exact fun p hp => if_pos hp
  · exact fun y j hy => .inl ⟨(hacc y j hy).2, (hacc y j hy).1⟩

/-- **Run lemma**: a finished breadth-first search has found the shortest distances. -/
theorem distWalk_run (hfin : (distWalk succ).Finished fuel (distInit sources)) :
    ((distWalk succ).run fuel (distInit sources)).acc z = some d ↔
      IsLeast {n | Steps succ sources n z} d := by
  have hinv : Layered succ sources ((distWalk succ).run fuel (distInit sources)) :=
    Walk.run_invariant (fun st x rest hp h => h.expand hp) fuel _ layered_distInit
  set dist := ((distWalk succ).run fuel (distInit sources)).acc with hdist
  -- by induction on the distance, along the back edges
  have hsound : ∀ d z, dist z = some d → Steps succ sources d z := by
    intro d
    induction d with
    | zero =>
      intro z hz
      rcases hinv.back z 0 hz with ⟨-, hsrc⟩ | ⟨x, i, -, -, hi⟩
      · exact .source hsrc
      · exact absurd hi (Nat.succ_ne_zero i).symm
    | succ d ih =>
      intro z hz
      rcases hinv.back z (d + 1) hz with ⟨h0, -⟩ | ⟨x, i, hx, hzx, hi⟩
      · exact absurd h0 (Nat.succ_ne_zero d)
      · obtain rfl : d = i := Nat.succ.inj hi
        exact .step (ih x hx) hzx
  have hcomplete : ∀ n z, Steps succ sources n z → ∃ j, dist z = some j ∧ j ≤ n := by
    intro n z hsteps
    induction hsteps with
    | source hp => exact ⟨0, hinv.source _ hp, le_refl _⟩
    | step _ hy ih =>
      obtain ⟨i, hi, hle⟩ := ih
      have hnot : ∀ a, a ∉ ((distWalk succ).run fuel (distInit sources)).pending := by
        intro a
        rw [hfin]
        exact not_mem_nil
      obtain ⟨j, hj, hji⟩ := hinv.done _ i hi (hnot _) _ hy
      exact ⟨j, hj, by omega⟩
  constructor
  · intro hz
    refine ⟨hsound d z hz, fun n hn => ?_⟩
    obtain ⟨j, hj, hle⟩ := hcomplete n z hn
    rw [hz] at hj
    exact (Option.some.inj hj) ▸ hle
  · intro ⟨hsteps, hleast⟩
    obtain ⟨j, hj, hle⟩ := hcomplete d z hsteps
    rw [hj, le_antisymm hle (hleast (hsound j z hj))]

/-- The nodes a finished breadth-first search has marked are those with a path. -/
theorem marks_distWalk_run (hfin : (distWalk succ).Finished fuel (distInit sources)) :
    ((distWalk succ).run fuel (distInit sources)).marks z = true ↔
      ∃ n, Steps succ sources n z := by
  have hinv : Layered succ sources ((distWalk succ).run fuel (distInit sources)) :=
    Walk.run_invariant (fun st x rest hp h => h.expand hp) fuel _ layered_distInit
  rw [hinv.marked, Option.isSome_iff_exists]
  constructor
  · intro ⟨d, hd⟩
    exact ⟨d, ((distWalk_run hfin).mp hd).1⟩
  · intro h
    classical
    exact ⟨Nat.find h, (distWalk_run hfin).mpr ⟨Nat.find_spec h, fun n hn => Nat.find_min' h hn⟩⟩

end Distances

end Libfsm.Lib
