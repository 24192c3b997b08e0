import Libfsm.Adt.Priq
import Libfsm.Fsm.Semantics

/-!
# Shortest Paths

`fsm_shortest`: Dijkstra's search with the list of `adt/priq.c` as the queue.  Two things keep it
from being a search for the least cost.  A group of parallel edges is relaxed with the cost of its
first label only.  And `UINT_MAX` stands for infinity: the first state that comes out of the queue
with that cost is what is returned when there is no path, also if it is the goal.

- `fsmShortest`: the function
- `FirstEdge`: the edges it looks at
- `Searching`: the invariant of the search
- `searchLoop_spec`: what the search finds
- `fsmShortest_least_iff`: when that is a least-cost path
-/

namespace Libfsm

open Lib
open List hiding prev set nil cons

variable {f : Fsm} {k s t : ℕ} {c : Byte} {p : List (ℕ × Byte)} {g : EdgeGroup}
  {done rest todo : List PriqNode} {u v : PriqNode}

/-! ## §1 The Function -/

/-- A cost function. -/
abbrev Cost := ℕ → ℕ → Byte → BitVec 32

/-- The relaxation of one group of edges; none if an assertion fails. -/
def relaxGroup (cost : Cost) (u : PriqNode) (done todo : List PriqNode) (g : EdgeGroup) :
    Option (List PriqNode) :=
  match priqFind todo g.toState with
  -- visited already
  | none => if (priqFind done g.toState).isSome then some todo else none
  | some v =>
    match g.labels.head? with
    | none => none
    | some symbol =>
      let total := (u.cost + (cost u.state v.state symbol).toNat) % 2 ^ 32
      if v.cost > total then
        some (priqUpdate todo { v with cost := total, prev := some u.state, c := symbol })
      else some todo

/-- The loop that follows the previous nodes; none if it does not end. -/
def pathBack (done : List PriqNode) : ℕ → PriqNode → List (ℕ × Byte) → Option (List (ℕ × Byte))
  | 0, _, _ => none
  | fuel + 1, u, path =>
    let path := (u.state, u.c) :: path
    match u.prev with
    | none => some path
    | some prev =>
      match priqFind done prev with
      | none => none
      | some u => pathBack done fuel u path

/-- The path to the goal. -/
def pathTo (done : List PriqNode) (goal : ℕ) : Option (List (ℕ × Byte)) :=
  match priqFind done goal with
  | none => none
  | some u => pathBack done done.length u []

/-- The main loop; none if an assertion fails. -/
def searchLoop (f : Fsm) (cost : Cost) (start goal : ℕ) : ℕ → List PriqNode → List PriqNode →
    Option (List (ℕ × Byte))
  | 0, _, _ => none
  | fuel + 1, todo, done =>
    match priqPop todo with
    | none => pathTo done goal
    | some (u, todo) =>
      let done := priqMove done u
      if u.cost = fsmCostInfinity then some [(u.state, u.c)]
      else if u.state = goal then
        if u.prev.isSome ∨ goal = start then pathTo done goal else none
      else
        ((edgeSetGroups (f.state u.state).edges).foldlM (relaxGroup cost u done) todo).bind
          fun todo => searchLoop f cost start goal fuel todo done

/-- `fsm_shortest`; none if an assertion fails or there is no start state. -/
def fsmShortest (f : Fsm) (start goal : ℕ) (cost : Cost) : Option (List (ℕ × Byte)) :=
  if ¬ (start < f.statecount ∧ goal < f.statecount) ∨ fsmHas f fsmHasepsilons then none
  else
    match f.start with
    | none => none
    | some qs =>
      let todo := (range f.statecount).foldl
        (fun todo i => priqPush todo i (if i = qs then 0 else fsmCostInfinity)) []
      searchLoop f cost start goal (f.statecount + 1) todo []

/-! ## §2 The Edges -/

variable {cost : Cost}

/-- The edges that are looked at: the first label of every group. -/
def Fsm.FirstEdge (f : Fsm) (s : ℕ) (c : Byte) (t : ℕ) : Prop :=
  ∃ g ∈ edgeSetGroups (f.state s).edges, g.toState = t ∧ g.labels.head? = some c

/-- The weight of an edge. -/
def Cost.weight (cost : Cost) (s t : ℕ) (c : Byte) : ℕ := (cost s t c).toNat

/-- A path along all edges, with its cost. -/
abbrev Fsm.Path (f : Fsm) (cost : Cost) (start : ℕ) : List (ℕ × Byte) → ℕ → ℕ → Prop :=
  CostPath f.Edge cost.weight start 0

/-- A path along the edges that are looked at, with its cost. -/
abbrev Fsm.FirstPath (f : Fsm) (cost : Cost) (start : ℕ) : List (ℕ × Byte) → ℕ → ℕ → Prop :=
  CostPath f.FirstEdge cost.weight start 0

/-- The cost of a path that meets no state twice can be counted. -/
def Fsm.SumsFit (f : Fsm) (cost : Cost) (start : ℕ) : Prop :=
  ∀ p s k, f.Path cost start p s k → (p.map Prod.fst).Nodup → k < 2 ^ 32

theorem Fsm.FirstEdge.edge (h : f.FirstEdge s c t) : f.Edge s c t := by
  obtain ⟨g, hg, rfl, hc⟩ := h
  refine ⟨g, (mem_filter.mp hg).1, rfl, ?_⟩
  exact EdgeGroup.mem_labels.mp (mem_of_head? hc)

theorem Fsm.FirstPath.path {start : ℕ} (h : f.FirstPath cost start p s k) :
    f.Path cost start p s k :=
  h.mono fun _ _ _ => Fsm.FirstEdge.edge

/-- A group that the iterator yields has a first label. -/
theorem exists_head_labels {set : EdgeSet} (hg : g ∈ edgeSetGroups set) :
    ∃ c, g.labels.head? = some c := by
  obtain ⟨-, c, hc⟩ := mem_edgeSetGroups.mp hg
  have hne : g.labels ≠ [] := ne_nil_of_mem (EdgeGroup.mem_labels.mpr hc)
  exact ⟨_, head?_eq_some_head hne⟩

/-- Between two states at most one edge is looked at. -/
theorem Fsm.FirstEdge.label_eq (hg : g ∈ edgeSetGroups (f.state s).edges) (ht : g.toState = t)
    (h : f.FirstEdge s c t) : g.labels.head? = some c := by
  obtain ⟨g', hg', ht', hc⟩ := h
  have heq : g = g' := EdgeSet.group_eq (mem_filter.mp hg).1 (mem_filter.mp hg').1
    (ht.trans ht'.symm)
  rwa [heq]

/-! ## §3 The Way Back -/

/-- `p` is what following the previous nodes from `u` gives. -/
inductive Traces (done : List PriqNode) : PriqNode → List (ℕ × Byte) → Prop
  | root {u : PriqNode} (h : u.prev = none) : Traces done u [(u.state, u.c)]
  | step {u v : PriqNode} {p : List (ℕ × Byte)} {prev : ℕ} (hprev : u.prev = some prev)
      (hfind : priqFind done prev = some v) (hp : Traces done v p) :
      Traces done u (p ++ [(u.state, u.c)])

/-- Nodes of other states may be added. -/
theorem Traces.priqMove {new : PriqNode} (h : Traces done u p)
    (hnew : new.state ∉ priqStates done) : Traces (priqMove done new) u p := by
  induction h with
  | root h => exact .root h
  | @step u v p prev hprev hfind _ ih =>
    refine .step hprev ?_ ih
    rw [priqFind_priqMove, hfind]
    rintro rfl
    obtain ⟨hv, hstate⟩ := mem_of_priqFind hfind
    exact hnew (mem_priqStates.mpr ⟨v, hv, hstate⟩)

theorem Traces.pathBack_eq (h : Traces done u p) {fuel : ℕ} (hfuel : p.length ≤ fuel)
    (path : List (ℕ × Byte)) : pathBack done fuel u path = some (p ++ path) := by
  induction h generalizing fuel path with
  | root h =>
    obtain ⟨fuel, rfl⟩ := Nat.exists_eq_succ_of_ne_zero (Nat.ne_zero_of_lt hfuel)
    rw [pathBack, h]
    rfl
  | @step u v p prev hprev hfind _ ih =>
    rw [length_append, length_singleton] at hfuel
    obtain ⟨fuel, rfl⟩ := Nat.exists_eq_succ_of_ne_zero (Nat.ne_zero_of_lt hfuel)
    rw [pathBack, hprev]
    dsimp only
    rw [hfind, append_assoc]
    exact ih (by omega) _

/-! ## §4 The Invariant -/

/-- The state of the search.  `Waived` tells which edges of settled states still wait to be
relaxed. -/
structure Searching (f : Fsm) (cost : Cost) (start : ℕ) (Waived : ℕ → ℕ → Prop)
    (todo done : List PriqNode) : Prop where
  perm : (priqStates (todo ++ done)).Perm (range f.statecount)
  ordered : PriqOrdered todo
  le : ∀ d ∈ done, ∀ v ∈ todo, d.cost ≤ v.cost
  finite : ∀ d ∈ done, d.cost < fsmCostInfinity
  source : ∃ v ∈ todo ++ done, v.state = start ∧ v.cost = 0
  relaxed : ∀ d ∈ done, ∀ c t, f.FirstEdge d.state c t → Waived d.state t ∨
    ∃ v ∈ todo ++ done, v.state = t ∧ v.cost ≤ d.cost + cost.weight d.state t c
  /-- What is known of a state in the queue: nothing, that it is the start, or an edge -/
  waiting : ∀ v ∈ todo, v.cost = fsmCostInfinity ∨ v = { cost := 0, state := start } ∨
    (v.cost < fsmCostInfinity ∧ ∃ u ∈ done, v.prev = some u.state ∧
      f.FirstEdge u.state v.c v.state ∧ v.cost = u.cost + cost.weight u.state v.state v.c)
  /-- A settled state has its path, over settled states -/
  settled : ∀ d ∈ done, ∃ p, Traces done d p ∧ f.FirstPath cost start p d.state d.cost ∧
    (p.map Prod.fst).Nodup ∧ ∀ s ∈ p.map Prod.fst, s ∈ priqStates done

namespace Searching

variable {f : Fsm} {cost : Cost} {start : ℕ} {Waived Waived' : ℕ → ℕ → Prop}
  {todo done : List PriqNode}

section

variable (h : Searching f cost start Waived todo done)
include h

theorem nodup : (priqStates (todo ++ done)).Nodup :=
  h.perm.nodup_iff.mpr nodup_range

theorem nodup_todo : (priqStates todo).Nodup := by
  have hnodup := h.nodup
  rw [priqStates, map_append] at hnodup
  exact (nodup_append.mp hnodup).1

theorem nodup_done : (priqStates done).Nodup := by
  have hnodup := h.nodup
  rw [priqStates, map_append] at hnodup
  exact (nodup_append.mp hnodup).2.1

/-- A state in the queue is not settled. -/
theorem notMem_done (hv : v ∈ todo) : v.state ∉ priqStates done := by
  intro hmem
  have hnodup := h.nodup
  rw [priqStates, map_append] at hnodup
  exact (nodup_append.mp hnodup).2.2 _ (mem_map_of_mem hv) _ hmem rfl

theorem exists_node (hs : s < f.statecount) : ∃ v ∈ todo ++ done, v.state = s :=
  mem_priqStates.mp (h.perm.mem_iff.mpr (mem_range.mpr hs))

/-- Fewer edges have to wait when their destinations are as cheap as they should be. -/
theorem waive
    (hwaived : ∀ d ∈ done, ∀ c t, f.FirstEdge d.state c t → Waived d.state t → Waived' d.state t ∨
      ∃ v ∈ todo ++ done, v.state = t ∧ v.cost ≤ d.cost + cost.weight d.state t c) :
    Searching f cost start Waived' todo done where
  perm := h.perm
  ordered := h.ordered
  le := h.le
  finite := h.finite
  source := h.source
  relaxed := by
    intro d hd c t hedge
    rcases h.relaxed d hd c t hedge with hw | hv
    · exact hwaived d hd c t hedge hw
    · exact .inr hv
  waiting := h.waiting
  settled := h.settled

end

/-! ### Settling -/

section

variable (h : Searching f cost start Waived (u :: rest) done) (hu : u.cost < fsmCostInfinity)
include h hu

/-- The cheapest state has a path over settled states. -/
theorem exists_path : ∃ p, Traces (priqMove done u) u p ∧ f.FirstPath cost start p u.state u.cost ∧
      (p.map Prod.fst).Nodup ∧ ∀ s ∈ p.map Prod.fst, s ∈ priqStates (priqMove done u) := by
  have hnew := h.notMem_done mem_cons_self
  rcases h.waiting u mem_cons_self with hinf | hstart | ⟨-, v, hv, hprev, hedge, hcost⟩
  · exact absurd hinf hu.ne
  · subst hstart
    refine ⟨_, .root rfl, .start, nodup_singleton _, fun s hs => ?_⟩
    rw [List.map_singleton, List.mem_singleton] at hs
    exact mem_priqStates.mpr ⟨_, mem_cons_self, hs.symm⟩
  · -- the path of the state before it, and one edge more
    obtain ⟨p, htrace, hpath, hnodup, hmem⟩ := h.settled v hv
    have hne : u.state ≠ v.state := fun heq => hnew (mem_priqStates.mpr ⟨v, hv, heq.symm⟩)
    have hfind : priqFind (priqMove done u) v.state = some v := by
      rw [priqFind_priqMove hne]
      exact priqFind_of_mem h.nodup_done hv
    refine ⟨_, .step hprev hfind (htrace.priqMove hnew), ?_, ?_, fun s hs => ?_⟩
    · rw [hcost]
      exact hpath.step hedge
    · rw [map_append, nodup_append]
      refine ⟨hnodup, nodup_singleton _, fun a ha b hb heq => ?_⟩
      rw [List.map_singleton, List.mem_singleton] at hb
      have hstate : a = u.state := heq.trans hb
      exact hnew (hstate ▸ hmem a ha)
    · rw [map_append, mem_append] at hs
      rcases hs with hs | hs
      · exact mem_cons_of_mem _ (hmem s hs)
      · rw [List.map_singleton, List.mem_singleton] at hs
        exact mem_priqStates.mpr ⟨u, mem_cons_self, hs.symm⟩

/-- The cheapest state is settled; its edges wait. -/
theorem settle :
    Searching f cost start (fun s t => Waived s t ∨ s = u.state) rest (priqMove done u) := by
  have hperm : (rest ++ priqMove done u).Perm (u :: rest ++ done) := perm_middle
  have hmem : ∀ v, v ∈ rest ++ priqMove done u ↔ v ∈ u :: rest ++ done := fun v => hperm.mem_iff
  exact {
    perm := (hperm.map PriqNode.state).trans h.perm
    ordered := h.ordered.sublist (sublist_cons_self u rest)
    le := by
      intro d hd v hv
      rcases mem_cons.mp hd with rfl | hd
      · exact ((pairwise_cons.mp h.ordered.before).1 v hv).1
      · exact h.le d hd v (mem_cons_of_mem u hv)
    finite := by
      intro d hd
      rcases mem_cons.mp hd with rfl | hd
      · exact hu
      · exact h.finite d hd
    source := by
      obtain ⟨v, hv, hstate⟩ := h.source
      exact ⟨v, (hmem v).mpr hv, hstate⟩
    relaxed := by
      intro d hd c t hedge
      rcases mem_cons.mp hd with rfl | hd
      · exact .inl (.inr rfl)
      · rcases h.relaxed d hd c t hedge with hw | ⟨v, hv, hstate⟩
        · exact .inl (.inl hw)
        · exact .inr ⟨v, (hmem v).mpr hv, hstate⟩
    waiting := by
      intro v hv
      rcases h.waiting v (mem_cons_of_mem u hv) with hinf | hstart | ⟨hfin, x, hx, hedge⟩
      · exact .inl hinf
      · exact .inr (.inl hstart)
      · exact .inr (.inr ⟨hfin, x, mem_cons_of_mem u hx, hedge⟩)
    settled := by
      intro d hd
      rcases mem_cons.mp hd with rfl | hd
      · exact h.exists_path hu
      · obtain ⟨p, htrace, hpath, hnodup, hstates⟩ := h.settled d hd
        exact ⟨p, htrace.priqMove (h.notMem_done mem_cons_self), hpath, hnodup,
          fun s hs => mem_cons_of_mem _ (hstates s hs)⟩ }

end

/-! ### Relaxing -/

/-- A cheaper way to a state in the queue. -/
theorem update (h : Searching f cost start Waived todo done) (hu : u ∈ done) (hv : v ∈ todo)
    (hmax : ∀ d ∈ done, d.cost ≤ u.cost) (hedge : f.FirstEdge u.state c v.state)
    (hless : u.cost + cost.weight u.state v.state c < v.cost) :
    Searching f cost start Waived (priqUpdate todo { v with
      cost := u.cost + cost.weight u.state v.state c, prev := some u.state, c := c }) done := by
  set s : PriqNode := { v with
    cost := u.cost + cost.weight u.state v.state c, prev := some u.state, c := c } with hs
  have hstate : s.state = v.state := rfl
  have hmem : ∀ x, x ∈ priqUpdate todo s ↔ x = s ∨ (x ∈ todo ∧ x.state ≠ v.state) := fun x =>
    mem_priqUpdate hv hstate h.nodup_todo
  have hfin : s.cost < fsmCostInfinity := hless.trans_le (h.ordered.le_infinity v hv)
  -- a node is kept, or it is the one that got cheaper
  have hkept : ∀ x ∈ todo ++ done, x ∈ priqUpdate todo s ++ done ∨ x = v := by
    intro x hx
    rcases mem_append.mp hx with hx | hx
    · by_cases hxv : x.state = v.state
      · exact .inr (node_eq_of_state_eq h.nodup_todo hx hv hxv)
      · exact .inl (mem_append_left _ ((hmem x).mpr (.inr ⟨hx, hxv⟩)))
    · exact .inl (mem_append_right _ hx)
  have hsmem : s ∈ priqUpdate todo s ++ done := mem_append_left _ ((hmem s).mpr (.inl rfl))
  exact {
    perm := by
      refine List.Perm.trans ?_ h.perm
      rw [priqStates, priqStates, map_append, map_append]
      exact (priqStates_priqUpdate hv hstate).append_right _
    ordered := h.ordered.update hfin
    le := by
      intro d hd x hx
      rcases (hmem x).mp hx with rfl | ⟨hx, -⟩
      · exact (hmax d hd).trans (Nat.le_add_right _ _)
      · exact h.le d hd x hx
    finite := h.finite
    source := by
      obtain ⟨x, hx, hstart, hzero⟩ := h.source
      rcases hkept x hx with hx | rfl
      · exact ⟨x, hx, hstart, hzero⟩
      · omega
    relaxed := by
      intro d hd c' t hdt
      rcases h.relaxed d hd c' t hdt with hw | ⟨x, hx, hxt, hle⟩
      · exact .inl hw
      · rcases hkept x hx with hx | rfl
        · exact .inr ⟨x, hx, hxt, hle⟩
        · exact .inr ⟨s, hsmem, hxt, hless.le.trans hle⟩
    waiting := by
      intro x hx
      rcases (hmem x).mp hx with rfl | ⟨hx, -⟩
      · exact .inr (.inr ⟨hfin, u, hu, rfl, hedge, rfl⟩)
      · exact h.waiting x hx
    settled := h.settled }

/-- The sum that is compared does not wrap around: it is the cost of a path that meets no state
twice. -/
theorem sum_lt (h : Searching f cost start Waived todo done) (hsums : f.SumsFit cost start)
    (hu : u ∈ done) (hv : v ∈ todo) (hedge : f.FirstEdge u.state c v.state) :
    u.cost + cost.weight u.state v.state c < 2 ^ 32 := by
  obtain ⟨p, -, hpath, hnodup, hmem⟩ := h.settled u hu
  apply hsums _ _ _ (hpath.path.step hedge.edge)
  rw [map_append, nodup_append]
  refine ⟨hnodup, nodup_singleton _, fun a ha b hb heq => ?_⟩
  rw [List.map_singleton, List.mem_singleton] at hb
  have hstate : a = v.state := heq.trans hb
  exact h.notMem_done hv (hstate ▸ hmem a ha)

/-- One group of edges: it does not have to wait any longer. -/
theorem relax (hwf : f.Wf) (hsums : f.SumsFit cost start)
    {gs : List EdgeGroup}
    (h : Searching f cost start (fun s t => s = u.state ∧
      t ∈ (g :: gs).map EdgeGroup.toState) todo done)
    (hu : u ∈ done) (hmax : ∀ d ∈ done, d.cost ≤ u.cost)
    (hg : g ∈ edgeSetGroups (f.state u.state).edges) :
    ∃ todo', relaxGroup cost u done todo g = some todo' ∧
      Searching f cost start (fun s t => s = u.state ∧ t ∈ gs.map EdgeGroup.toState) todo' done ∧
      (priqStates todo').Perm (priqStates todo) := by
  obtain ⟨c, hc⟩ := exists_head_labels hg
  have hedge : f.FirstEdge u.state c g.toState := ⟨g, hg, rfl, hc⟩
  -- the waiver of this group may go once the destination is cheap enough
  have hdone : ∀ {todo' : List PriqNode}, Searching f cost start
      (fun s t => s = u.state ∧ t ∈ (g :: gs).map EdgeGroup.toState) todo' done →
      (∃ v ∈ todo' ++ done, v.state = g.toState ∧
        v.cost ≤ u.cost + cost.weight u.state g.toState c) →
      Searching f cost start (fun s t => s = u.state ∧ t ∈ gs.map EdgeGroup.toState) todo'
        done := by
    intro todo' h' hcheap
    refine h'.waive fun d hd c' t hdt hw => ?_
    obtain rfl : d = u := node_eq_of_state_eq h'.nodup_done hd hu hw.1
    rcases mem_cons.mp hw.2 with rfl | ht
    · have hcc : c = c' := Option.some.inj (hc.symm.trans (hdt.label_eq hg rfl))
      exact .inr (hcc ▸ hcheap)
    · exact .inl ⟨hw.1, ht⟩
  rw [relaxGroup]
  cases hfind : priqFind todo g.toState with
  | none =>
    -- visited already, and no dearer than `u`
    obtain ⟨v, hv, hstate⟩ := h.exists_node (hwf.edge_lt hedge.edge)
    have hvdone : v ∈ done := (mem_append.mp hv).resolve_left fun hv =>
      priqFind_eq_none_iff.mp hfind (mem_priqStates.mpr ⟨v, hv, hstate⟩)
    have hsome : (priqFind done g.toState).isSome = true := by
      rw [← hstate, priqFind_of_mem h.nodup_done hvdone]
      rfl
    rw [if_pos hsome]
    exact ⟨todo, rfl, hdone h ⟨v, hv, hstate, (hmax v hvdone).trans (Nat.le_add_right _ _)⟩,
      .refl _⟩
  | some v =>
    obtain ⟨hv, hstate⟩ := mem_of_priqFind hfind
    rw [← hstate] at hedge
    rw [hc]
    have hmod : (u.cost + (cost u.state v.state c).toNat) % 2 ^ 32 =
        u.cost + cost.weight u.state v.state c := Nat.mod_eq_of_lt (h.sum_lt hsums hu hv hedge)
    dsimp only
    rw [hmod]
    split
    · rename_i hless
      refine ⟨_, rfl, hdone (h.update hu hv hmax hedge hless) ?_, priqStates_priqUpdate hv rfl⟩
      refine ⟨{ v with cost := u.cost + cost.weight u.state v.state c, prev := some u.state, c },
        mem_append_left _ ?_, hstate, ?_⟩
      · refine (mem_priqUpdate hv ?_ h.nodup_todo).mpr (.inl rfl)
        rfl
      · rw [hstate]
    · rename_i hle
      exact ⟨todo, rfl, hdone h ⟨v, mem_append_left _ hv, hstate,
        hstate ▸ Nat.le_of_not_lt hle⟩, .refl _⟩

/-- All groups of edges of the state that was settled. -/
theorem relaxAll (hwf : f.Wf) (hsums : f.SumsFit cost start) (gs : List EdgeGroup)
    {todo : List PriqNode}
    (h : Searching f cost start (fun s t => s = u.state ∧ t ∈ gs.map EdgeGroup.toState) todo done)
    (hu : u ∈ done) (hmax : ∀ d ∈ done, d.cost ≤ u.cost)
    (hgs : ∀ g ∈ gs, g ∈ edgeSetGroups (f.state u.state).edges) :
    ∃ todo', gs.foldlM (relaxGroup cost u done) todo = some todo' ∧
      Searching f cost start (fun _ _ => False) todo' done ∧
      (priqStates todo').Perm (priqStates todo) := by
  induction gs generalizing todo with
  | nil => exact ⟨todo, rfl, h.waive fun _ _ _ _ _ hw => absurd hw.2 not_mem_nil, .refl _⟩
  | cons g gs ih =>
    obtain ⟨todo₁, heq₁, h₁, hperm₁⟩ := h.relax hwf hsums hu hmax (hgs g mem_cons_self)
    obtain ⟨todo₂, heq₂, h₂, hperm₂⟩ := ih h₁ fun g' hg' => hgs g' (mem_cons_of_mem g hg')
    refine ⟨todo₂, ?_, h₂, hperm₂.trans hperm₁⟩
    rw [foldlM_cons, heq₁]
    exact heq₂

/-! ### The frontier -/

/-- A path leads to a settled state that costs no more, or costs at least as much as all states in
the queue. -/
theorem settled_or_le (h : Searching f cost start (fun _ _ => False) todo done) {m : ℕ}
    (hm : ∀ v ∈ todo, m ≤ v.cost) (hpath : f.FirstPath cost start p s k) :
    (∃ d ∈ done, d.state = s ∧ d.cost ≤ k) ∨ m ≤ k := by
  have hsettled := hpath.settled_or_le (fun s d => ∃ v ∈ done, v.state = s ∧ v.cost = d) m ?_ ?_
  · rcases hsettled with ⟨_, ⟨v, hv, hstate, rfl⟩, hle⟩ | hle
    · exact .inl ⟨v, hv, hstate, hle⟩
    · exact .inr hle
  · obtain ⟨v, hv, hstart, hzero⟩ := h.source
    rcases mem_append.mp hv with hv | hv
    · exact .inr (Nat.le_zero.mp (hzero ▸ hm v hv))
    · exact .inl ⟨v, hv, hstart, hzero⟩
  · rintro _ _ c t ⟨d, hd, rfl, rfl⟩ hedge
    rcases h.relaxed d hd c t hedge with hw | ⟨v, hv, hvt, hle⟩
    · exact hw.elim
    · rcases mem_append.mp hv with hv | hv
      · exact .inr ((hm v hv).trans hle)
      · exact .inl ⟨v.cost, ⟨v, hv, hvt, rfl⟩, hle⟩

end Searching

/-! ## §5 The Search -/

section Search

variable {f : Fsm} {cost : Cost} {start goal : ℕ}

/-- There is a path along the edges that are looked at which is not as dear as infinity. -/
def Fsm.Cheap (f : Fsm) (cost : Cost) (start s : ℕ) : Prop :=
  ∃ p k, f.FirstPath cost start p s k ∧ k < fsmCostInfinity

/-- **What the search finds**: a least-cost path along the edges it looks at, or the largest state
to which there is none. -/
def SearchFound (f : Fsm) (cost : Cost) (start goal : ℕ) (path : List (ℕ × Byte)) : Prop :=
  (∃ k, f.FirstPath cost start path goal k ∧ k < fsmCostInfinity ∧
      ∀ p k', f.FirstPath cost start p goal k' → k ≤ k') ∨
    (¬ f.Cheap cost start goal ∧ ∃ u c, path = [(u, c)] ∧ u < f.statecount ∧
      ¬ f.Cheap cost start u ∧ ∀ s < f.statecount, ¬ f.Cheap cost start s → s ≤ u)

/-- The path to a settled state is found. -/
theorem Searching.pathTo_eq {Waived : ℕ → ℕ → Prop} (h : Searching f cost start Waived todo done)
    (hu : u ∈ done) :
    ∃ p, pathTo done u.state = some p ∧ f.FirstPath cost start p u.state u.cost := by
  obtain ⟨p, htrace, hpath, hnodup, hmem⟩ := h.settled u hu
  -- a path that meets no state twice is no longer than the list of settled states
  have hlen : p.length ≤ done.length := by
    have hle := (hnodup.subperm hmem).length_le
    rwa [priqStates, length_map, length_map] at hle
  refine ⟨p, ?_, hpath⟩
  rw [pathTo, priqFind_of_mem h.nodup_done hu]
  dsimp only
  rw [htrace.pathBack_eq hlen, append_nil]

/-- When infinity comes out of the queue, no state that is left can be reached. -/
theorem Searching.cheap_iff (h : Searching f cost start (fun _ _ => False) (u :: rest) done)
    (hu : u.cost = fsmCostInfinity) (hs : s < f.statecount) :
    ¬ f.Cheap cost start s ↔ s ∈ priqStates (u :: rest) := by
  have hm : ∀ v ∈ u :: rest, fsmCostInfinity ≤ v.cost := by
    intro v hv
    rcases mem_cons.mp hv with rfl | hv
    · exact hu.ge
    · exact hu ▸ ((pairwise_cons.mp h.ordered.before).1 v hv).1
  constructor
  · intro hcheap
    obtain ⟨v, hv, rfl⟩ := h.exists_node hs
    rcases mem_append.mp hv with hv | hv
    · exact mem_priqStates.mpr ⟨v, hv, rfl⟩
    · obtain ⟨p, -, hpath, -, -⟩ := h.settled v hv
      exact absurd ⟨p, v.cost, hpath, h.finite v hv⟩ hcheap
  · rintro hmem ⟨p, k, hpath, hk⟩
    obtain ⟨v, hv, rfl⟩ := mem_priqStates.mp hmem
    rcases h.settled_or_le hm hpath with ⟨d, hd, hstate, -⟩ | hle
    · exact h.notMem_done hv (mem_priqStates.mpr ⟨d, hd, hstate⟩)
    · omega

theorem searchLoop_spec (hwf : f.Wf) (hsums : f.SumsFit cost start) (hgoal : goal < f.statecount)
    (fuel : ℕ) (h : Searching f cost start (fun _ _ => False) todo done)
    (hmem : goal ∈ priqStates todo) (hfuel : todo.length < fuel) :
    ∃ path, searchLoop f cost start goal fuel todo done = some path ∧
      SearchFound f cost start goal path := by
  induction fuel generalizing todo done with
  | zero => omega
  | succ fuel ih =>
    match todo, h, hmem, hfuel with
    | u :: rest, h, hmem, hfuel =>
    rw [searchLoop, priqPop]
    dsimp only
    by_cases hinf : u.cost = fsmCostInfinity
    · -- the first state of infinite cost
      rw [if_pos hinf]
      have hu : u.state < f.statecount :=
        mem_range.mp (h.perm.mem_iff.mp (mem_priqStates.mpr ⟨u, mem_cons_self, rfl⟩))
      refine ⟨_, rfl, .inr ⟨(h.cheap_iff hinf hgoal).mpr hmem, u.state, u.c, rfl, hu, ?_, ?_⟩⟩
      · exact (h.cheap_iff hinf hu).mpr mem_cons_self
      · intro s hs hcheap
        obtain ⟨v, hv, rfl⟩ := mem_priqStates.mp ((h.cheap_iff hinf hs).mp hcheap)
        rcases mem_cons.mp hv with rfl | hv
        · exact le_refl _
        · exact (((pairwise_cons.mp h.ordered.before).1 v hv).2 hinf).le
    · have hfin : u.cost < fsmCostInfinity :=
        lt_of_le_of_ne (h.ordered.le_infinity u mem_cons_self) hinf
      have hsettled := h.settle hfin
      rw [if_neg hinf]
      by_cases hug : u.state = goal
      · -- the goal: no path is cheaper than the cheapest state in the queue
        have hassert : u.prev.isSome = true ∨ goal = start := by
          rcases h.waiting u mem_cons_self with hinf' | rfl | ⟨-, v, -, hprev, -⟩
          · exact absurd hinf' hinf
          · exact .inr hug.symm
          · exact .inl (by rw [hprev]; rfl)
        rw [if_pos hug, if_pos hassert, ← hug]
        obtain ⟨p, hp, hpath⟩ := hsettled.pathTo_eq mem_cons_self
        refine ⟨p, hp, .inl ⟨u.cost, hpath, hfin, fun p' k' hpath' => ?_⟩⟩
        have hm : ∀ v ∈ u :: rest, u.cost ≤ v.cost := by
          intro v hv
          rcases mem_cons.mp hv with rfl | hv
          · exact le_refl _
          · exact ((pairwise_cons.mp h.ordered.before).1 v hv).1
        rcases h.settled_or_le hm hpath' with ⟨d, hd, hstate, -⟩ | hle
        · exact absurd (mem_priqStates.mpr ⟨d, hd, hstate⟩) (h.notMem_done mem_cons_self)
        · exact hle
      · rw [if_neg hug]
        have hwaived : Searching f cost start (fun s t => s = u.state ∧
            t ∈ (edgeSetGroups (f.state u.state).edges).map EdgeGroup.toState) rest
              (priqMove done u) := by
          refine hsettled.waive fun d _ c t hedge hw => .inl ?_
          have hstate := hw.resolve_left id
          obtain ⟨g, hg, rfl, -⟩ := hedge
          exact ⟨hstate, mem_map_of_mem (hstate ▸ hg)⟩
        have hmax : ∀ d ∈ priqMove done u, d.cost ≤ u.cost := by
          intro d hd
          rcases mem_cons.mp hd with rfl | hd
          · exact le_refl _
          · exact h.le d hd u mem_cons_self
        obtain ⟨todo', hfold, hnext, hperm⟩ := hwaived.relaxAll hwf hsums _ mem_cons_self hmax
          fun _ hg => hg
        rw [hfold]
        refine ih hnext ?_ ?_
        · have hrest : goal ∈ priqStates rest :=
            (mem_cons.mp hmem).resolve_left fun heq => hug heq.symm
          exact hperm.mem_iff.mpr hrest
        · have hlen := hperm.length_eq
          rw [priqStates, priqStates, length_map, length_map] at hlen
          rw [length_cons] at hfuel
          omega

/-- The node of a state before the search. -/
def initialNode (start i : ℕ) : PriqNode :=
  { cost := if i = start then 0 else fsmCostInfinity, state := i }

/-- The queue after the first `n` states. -/
structure Queued (start n : ℕ) (todo : List PriqNode) : Prop where
  perm : (priqStates todo).Perm (range n)
  ordered : PriqOrdered todo
  node : ∀ v ∈ todo, v = initialNode start v.state

theorem Queued.push {n : ℕ} (h : Queued start n todo) :
    Queued start (n + 1) (priqPush todo n (if n = start then 0 else fsmCostInfinity)) where
  perm := by
    refine ((priqInsert_perm _ _).map PriqNode.state).trans ?_
    rw [range_succ]
    exact (h.perm.cons n).trans (perm_append_singleton n _).symm
  ordered := by
    apply h.ordered.insert
    · split
      · exact Nat.zero_le _
      · exact le_refl _
    · -- the states are pushed in ascending order
      intro _ v hv
      exact mem_range.mp (h.perm.mem_iff.mp (mem_priqStates.mpr ⟨v, hv, rfl⟩))
  node := by
    intro v hv
    rcases mem_priqInsert.mp hv with rfl | hv
    · rfl
    · exact h.node v hv

theorem queued_range (start n : ℕ) : Queued start n ((range n).foldl
    (fun todo i => priqPush todo i (if i = start then 0 else fsmCostInfinity)) []) := by
  induction n with
  | zero => exact ⟨.refl _, ⟨List.Pairwise.nil, nofun⟩, nofun⟩
  | succ n ih =>
    rw [range_succ, foldl_append]
    exact ih.push

theorem fsmCostInfinity_pos : 0 < fsmCostInfinity := by
  rw [fsmCostInfinity]
  omega

/-- The search starts with all states in the queue. -/
theorem Queued.searching (h : Queued start f.statecount todo) (hstart : start < f.statecount) :
    Searching f cost start (fun _ _ => False) todo [] where
  perm := by
    rw [append_nil]
    exact h.perm
  ordered := h.ordered
  le := nofun
  finite := nofun
  source := by
    obtain ⟨v, hv, hstate⟩ := mem_priqStates.mp (h.perm.mem_iff.mpr (mem_range.mpr hstart))
    refine ⟨v, mem_append_left _ hv, hstate, ?_⟩
    rw [h.node v hv]
    exact if_pos hstate
  relaxed := nofun
  waiting := by
    intro v hv
    rw [h.node v hv]
    by_cases hstate : v.state = start
    · refine .inr (.inl ?_)
      rw [initialNode, if_pos hstate, hstate]
    · exact .inl (if_neg hstate)
  settled := nofun

/-- **The search**, for every cost function whose sums fit. -/
theorem fsmShortest_found (hwf : f.Wf) (hstart : f.start = some start)
    (hfree : ∀ s t, ¬ f.Eps s t) (hgoal : goal < f.statecount) (hsums : f.SumsFit cost start) :
    ∃ path, fsmShortest f start goal cost = some path ∧ SearchFound f cost start goal path := by
  have hlt := hwf.start_lt hstart
  have hnoeps : fsmHas f fsmHasepsilons = false := by
    rw [← Bool.not_eq_true, fsmHas_eq_true_iff]
    rintro ⟨s, -, hs⟩
    obtain ⟨t, ht⟩ := fsmHasepsilons_eq_true_iff.mp hs
    exact hfree s t ht
  have hqueue := queued_range start f.statecount
  have hlen := hqueue.perm.length_eq
  rw [priqStates, length_map, length_range] at hlen
  obtain ⟨path, hpath, hfound⟩ := searchLoop_spec hwf hsums hgoal (f.statecount + 1)
    (hqueue.searching hlt) (hqueue.perm.mem_iff.mpr (mem_range.mpr hgoal)) (by omega)
  refine ⟨path, ?_, hfound⟩
  rw [fsmShortest, hnoeps, if_neg (by simp [hlt, hgoal]), hstart]
  exact hpath

end Search

/-! ## §6 Least Cost -/

/-- `fsm_shortest` returns a path from the start to the goal that costs least over all paths and
labels, or one without the goal if there is none. -/
def FindsShortest (f : Fsm) (cost : Cost) (start goal : ℕ) : Prop :=
  ∃ path, fsmShortest f start goal cost = some path ∧
    ((∃ p k, f.Path cost start p goal k) →
      ∃ k, f.Path cost start path goal k ∧ ∀ p k', f.Path cost start p goal k' → k ≤ k') ∧
    ((¬ ∃ p k, f.Path cost start p goal k) → goal ∉ path.map Prod.fst)

/-- **When the path is a shortest one**.  With a reachable goal: if some path of least cost uses the
first labels of its groups only and costs less than `UINT_MAX`.  With a goal that cannot be reached:
if a state with a larger number cannot be reached by such a path either. -/
theorem fsmShortest_least_iff {f : Fsm} {cost : Cost} {start goal : ℕ} (hwf : f.Wf)
    (hstart : f.start = some start) (hfree : ∀ s t, ¬ f.Eps s t) (hgoal : goal < f.statecount)
    (hsums : f.SumsFit cost start) :
    FindsShortest f cost start goal ↔
      ((∃ p k, f.Path cost start p goal k) →
        ∃ p k, f.FirstPath cost start p goal k ∧ k < fsmCostInfinity ∧
          ∀ p' k', f.Path cost start p' goal k' → k ≤ k') ∧
      ((¬ ∃ p k, f.Path cost start p goal k) →
        ∃ s, goal < s ∧ s < f.statecount ∧ ¬ f.Cheap cost start s) := by
  obtain ⟨path, hpath, hfound⟩ := fsmShortest_found hwf hstart hfree hgoal hsums
  have honly : FindsShortest f cost start goal ↔
      ((∃ p k, f.Path cost start p goal k) →
        ∃ k, f.Path cost start path goal k ∧ ∀ p k', f.Path cost start p goal k' → k ≤ k') ∧
      ((¬ ∃ p k, f.Path cost start p goal k) → goal ∉ path.map Prod.fst) := by
    constructor
    · rintro ⟨path', hpath', h⟩
      cases hpath.symm.trans hpath'
      exact h
    · exact fun h => ⟨path, hpath, h⟩
  rw [honly]
  refine and_congr (forall_congr' fun hreach => ?_) (forall_congr' fun hreach => ?_)
  · rcases hfound with ⟨k₀, hfirst, hk₀, hleast⟩ | ⟨hdear, u, c, rfl, -, hu, -⟩
    · constructor
      · rintro ⟨k, hk, hmin⟩
        obtain rfl : k₀ = k := (hfirst.unique hk).2
        exact ⟨path, k₀, hfirst, hk₀, hmin⟩
      · rintro ⟨p, k, hp, -, hmin⟩
        exact ⟨k₀, hfirst.path, fun p' k' hp' => (hleast p k hp).trans (hmin p' k' hp')⟩
    · constructor
      · -- a path of one entry would end at the start
        rintro ⟨k, hk, -⟩
        have hus : u = start := hk.eq_start_of_singleton.1
        exact absurd ⟨_, 0, .start, fsmCostInfinity_pos⟩ (hus ▸ hu)
      · rintro ⟨p, k, hp, hk, -⟩
        exact absurd ⟨p, k, hp, hk⟩ hdear
  · rcases hfound with ⟨k₀, hfirst, -⟩ | ⟨hdear, u, c, rfl, hult, hu, hlargest⟩
    · exact absurd ⟨path, k₀, hfirst.path⟩ hreach
    · rw [List.map_singleton, List.mem_singleton]
      constructor
      · intro hne
        exact ⟨u, lt_of_le_of_ne (hlargest goal hgoal hdear) hne, hult, hu⟩
      · rintro ⟨s, hgs, hs, hcheap⟩
        exact (hgs.trans_le (hlargest s hs hcheap)).ne

/-- `a` and `b` from 0 to 1. -/
def twoLabelsFsm : Fsm :=
  { states := [{ edges := edgeSetAdd (edgeSetAdd .null 97 1) 98 1 }, { isEnd := true }],
    endcount := 1,
    start := some 0 }

theorem edge_twoLabelsFsm (h : twoLabelsFsm.Edge s c t) : s = 0 ∧ t = 1 := by
  have hs : s < 2 := h.source_lt
  obtain ⟨g, hg, rfl, -⟩ := h
  have hall : ∀ s < 2, ∀ g ∈ (twoLabelsFsm.state s).edges.groups, s = 0 ∧ g.toState = 1 := by
    decide
  exact hall s hs g hg

/-- The paths from 0 are the empty one and single edges. -/
theorem path_twoLabelsFsm (h : twoLabelsFsm.Path cost 0 p s k) :
    (s = 0 ∧ k = 0) ∨ (s = 1 ∧ ∃ c, k = cost.weight 0 1 c) := by
  cases h with
  | start => exact .inl ⟨rfl, rfl⟩
  | @step p s t k c hp hstep =>
    obtain ⟨rfl, rfl⟩ := edge_twoLabelsFsm hstep
    refine .inr ⟨rfl, c, ?_⟩
    cases hp with
    | start => exact zero_add _
    | step _ hstep => exact absurd (edge_twoLabelsFsm hstep).2 Nat.zero_ne_one

theorem sumsFit_twoLabelsFsm (cost : Cost) : twoLabelsFsm.SumsFit cost 0 := by
  intro p s k h _
  rcases path_twoLabelsFsm h with ⟨-, rfl⟩ | ⟨-, c, rfl⟩
  · exact Nat.two_pow_pos 32
  · exact (cost 0 1 c).isLt

/-- Two states without edges. -/
def twoIslandsFsm : Fsm :=
  { states := [{}, { isEnd := true }],
    endcount := 1,
    start := some 0 }

theorem path_twoIslandsFsm (h : twoIslandsFsm.Path cost 0 p s k) : s = 0 ∧ k = 0 := by
  cases h with
  | start => exact ⟨rfl, rfl⟩
  | @step p s t k c _ hstep =>
    have hs : s < 2 := Fsm.Edge.source_lt hstep
    obtain ⟨g, hg, -⟩ := hstep
    have hall : ∀ s < 2, (twoIslandsFsm.state s).edges.groups = [] := by decide
    rw [hall s hs] at hg
    cases hg

/-- With `a` at 5 and `b` at 1 the path over `a` is returned.  And where there is no path to 1, what
is returned is 1. -/
theorem not_findsShortest :
    (twoLabelsFsm.SumsFit (fun _ _ c => if c = 97 then 5 else 1) 0 ∧
      ¬ FindsShortest twoLabelsFsm (fun _ _ c => if c = 97 then 5 else 1) 0 1) ∧
    (twoIslandsFsm.SumsFit (fun _ _ _ => 1) 0 ∧
      ¬ FindsShortest twoIslandsFsm (fun _ _ _ => 1) 0 1) := by
  refine ⟨⟨sumsFit_twoLabelsFsm _, ?_⟩, fun p s k h _ => ?_, ?_⟩
  · rintro ⟨path, hpath, hleast, -⟩
    have hvalue : fsmShortest twoLabelsFsm 0 1 (fun _ _ c => if c = 97 then 5 else 1) =
        some [(0, 0), (1, 97)] := by decide +kernel
    cases hvalue.symm.trans hpath
    have ha : twoLabelsFsm.Path (fun _ _ c => if c = 97 then 5 else 1) 0 [(0, 0), (1, 97)] 1 5 :=
      CostPath.start.step (p := [(0, 0)]) (c := (97 : Byte)) (by decide)
    have hb : twoLabelsFsm.Path (fun _ _ c => if c = 97 then 5 else 1) 0 [(0, 0), (1, 98)] 1 1 :=
      CostPath.start.step (p := [(0, 0)]) (c := (98 : Byte)) (by decide)
    obtain ⟨k, hk, hmin⟩ := hleast ⟨_, _, ha⟩
    obtain rfl : k = 5 := (hk.unique ha).2
    exact absurd (hmin _ _ hb) (by decide)
  · rw [(path_twoIslandsFsm h).2]
    exact Nat.two_pow_pos 32
  · rintro ⟨path, hpath, -, hnone⟩
    have hvalue : fsmShortest twoIslandsFsm 0 1 (fun _ _ _ => 1) =
        some [(1, 0)] := by decide +kernel
    cases hvalue.symm.trans hpath
    refine hnone ?_ (by decide)
    rintro ⟨p, k, h⟩
    exact absurd (path_twoIslandsFsm h).1 Nat.one_ne_zero

/-- With the same cost for both labels the path over `a` is a shortest one. -/
theorem fsmShortest_least_iff_twoLabels : FindsShortest twoLabelsFsm (fun _ _ _ => 1) 0 1 := by
  have hfree : ∀ s t, ¬ twoLabelsFsm.Eps s t := by
    intro s t ht
    have hs : s < 2 := ht.source_lt
    have hall : ∀ s < 2, (twoLabelsFsm.state s).epsilons = .null := by decide
    rw [Fsm.Eps, hall s hs] at ht
    exact notMem_null t ht
  have ha : twoLabelsFsm.FirstPath (fun _ _ _ => 1) 0 [(0, 0), (1, 97)] 1 1 := by
    refine CostPath.start.step (p := [(0, 0)]) (c := (97 : Byte)) ?_
    exact ⟨⟨3#256 <<< 97, 1⟩, by decide +kernel, rfl, by decide +kernel⟩
  refine (fsmShortest_least_iff (Fsm.wf_of_wfCheck (by decide)) rfl hfree (by decide)
    (sumsFit_twoLabelsFsm _)).mpr ⟨fun _ => ⟨_, 1, ha, by decide +kernel, fun p' k' h => ?_⟩, ?_⟩
  · rcases path_twoLabelsFsm h with ⟨h1, -⟩ | ⟨-, c, rfl⟩
    · exact absurd h1 Nat.one_ne_zero
    · exact le_refl 1
  · exact fun hno => absurd ⟨_, _, ha.path⟩ hno

end Libfsm
