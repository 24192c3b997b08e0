import Libfsm.Adt.Queue
import Libfsm.Lib.OffsetIndex
import Libfsm.Ops.Compact

/-!
# Trimming

`fsm_trim` of `trim.c`: remove the states that cannot be reached from the start state and,
in one of its modes, those that cannot reach an end state.

A breadth-first walk from the start state marks states in `visited` and, if end states
matter, collects them and every edge it sees.  The edges sorted by destination serve as a
reverse index for a second walk from the end states, which also finds the distance of each
state to the nearest end.

- `markStates`: both walks
- `fsmTrim`: the marks, the compaction that sweeps the other states, and the distances
- `fsmTrim_renumbered`: which states are kept, if no mark was set before
- `fsmTrim_sed`: the distances
- `fsmTrim_language`: trimming keeps the language
- `fsmTrim_exact`: all of this together
-/

namespace Libfsm

open Lib
open List hiding nil cons

variable {f : Fsm} {s t : ℕ} {w : List Byte}

/-! ## §1 The Functions -/

/-- `enum fsm_trim_mode` -/
inductive TrimMode where
  | startReachable
  | startAndEndReachable
  deriving DecidableEq, Repr

/-- `struct edge`: the fields `from` and `to`. -/
structure TrimEdge where
  source : ℕ
  target : ℕ
  deriving DecidableEq, Repr

def cmpEdgesByTo (a b : TrimEdge) : Prop :=
  a.target < b.target ∨ (a.target = b.target ∧ a.source ≤ b.source)

instance : DecidableRel cmpEdgesByTo := fun a b =>
  inferInstanceAs (Decidable (a.target < b.target ∨ (a.target = b.target ∧ a.source ≤ b.source)))

/-- The destinations of a state in the order of the walk: epsilon edges, then groups. -/
def Fsm.successors (f : Fsm) (s : ℕ) : List ℕ :=
  (f.state s).epsilons.toList ++ (edgeSetGroups (f.state s).edges).map EdgeGroup.toState

/-- The first walk of `mark_states`, which collects end states and edges if the mode asks
for them. -/
def startWalk (f : Fsm) (mode : TrimMode) : Walk ℕ (List ℕ × List TrimEdge) where
  discipline := .queue
  succ := f.successors
  visit acc s :=
    if mode = .startAndEndReachable ∧ fsmIsend f s = true then (acc.1 ++ [s], acc.2) else acc
  relax acc s next :=
    if mode = .startAndEndReachable then (acc.1, acc.2 ++ [⟨s, next⟩]) else acc

/-- The first walk, from `start`, with the marks as they are found. -/
def markFromStart (f : Fsm) (mode : TrimMode) (start : ℕ) :
    SearchState ℕ (List ℕ × List TrimEdge) :=
  (startWalk f mode).run (f.statecount + 1)
    { marks := Function.update (fun s => (f.state s).visited) start true
      pending := [start]
      acc := ([], []) }

/-- The graph of the second walk: the edges into a state, by the offset table. -/
def edgesInto (edges : List TrimEdge) (n s : ℕ) : List ℕ :=
  (slice edges (offsetTable TrimEdge.target edges n) s).map TrimEdge.source

/-- The second walk, from the end states, with all marks cleared before. -/
def markFromEnds (n : ℕ) (ends : List ℕ) (edges : List TrimEdge) :
    SearchState ℕ (ℕ → Option ℕ) :=
  if edges = [] then distInit ends
  else (distWalk (edgesInto edges n)).run (ends.length + n) (distInit ends)

/-- `mark_states`: the marks, and the shortest distance of each state to an end. -/
def markStates (f : Fsm) (mode : TrimMode) : (ℕ → Bool) × (ℕ → Option ℕ) :=
  match fsmGetstart f with
  | none => (fun s => (f.state s).visited, fun _ => none)
  | some start =>
    let walk := markFromStart f mode start
    match mode with
    | .startReachable => (walk.marks, fun _ => none)
    | .startAndEndReachable =>
      let back := markFromEnds f.statecount walk.acc.1 (walk.acc.2.insertionSort cmpEdgesByTo)
      (back.marks, back.acc)

/-- What `fsm_trim` returns and leaves behind. -/
structure TrimResult where
  ret : ℕ
  fsm : Fsm
  /-- `*shortest_end_distance`, for a caller that asks for it -/
  sed : List (Option ℕ)

def fsmTrim (f : Fsm) (mode : TrimMode) : TrimResult :=
  if f.statecount = 0 then ⟨1, f, []⟩
  else
    let (marks, sed) := markStates f mode
    let f := f.setVisited marks
    -- `compact_shortest_end_distance`
    let sed := ((range f.statecount).filter fun s => (f.state s).visited).map sed
    let (f, swept) := fsmCompactStates f fun s => (f.state s).visited
    ⟨swept, f.setVisited fun _ => false, sed⟩

/-! ## §2 The First Walk -/

theorem mem_successors : t ∈ f.successors s ↔ f.Step s t := by
  rw [Fsm.successors, mem_append, Fsm.step_iff, mem_map, exists_mem_edgeSetGroups_iff]
  rfl

private theorem relation_successors (f : Fsm) :
    (fun a b => b ∈ f.successors a) = f.Step := by
  funext a b
  exact propext mem_successors

theorem successors_lt (hf : f.Wf) (h : t ∈ f.successors s) : t < f.statecount := by
  obtain ⟨o, ho⟩ := mem_successors.mp h
  exact hf.step_lt ho

/-- The queue of the first walk has room for every state that is pushed. -/
theorem hasRoom_startWalk (hf : f.Wf) {start : ℕ} (hstart : f.start = some start) (mode : TrimMode)
    (marks : ℕ → Bool) (acc : List ℕ × List TrimEdge) (fuel : ℕ) : HasRoom f.statecount
      ((startWalk f mode).run fuel ⟨Function.update marks start true, [start], acc⟩) := by
  refine (hasRoom_of_marked (nodup_singleton start) ?_).run (fun x y => successors_lt hf) fuel
  simpa using hf.start_lt hstart

theorem finished_startWalk (hf : f.Wf) {start : ℕ} (hstart : f.start = some start)
    (mode : TrimMode) (marks : ℕ → Bool) (acc : List ℕ × List TrimEdge) :
    (startWalk f mode).Finished (f.statecount + 1) ⟨marks, [start], acc⟩ := by
  refine Walk.finished_of_lt (fun x y => successors_lt hf) (fun p hp => ?_) (add_comm 1 _).le
  rw [mem_singleton.mp hp]
  exact hf.start_lt hstart

/-- What the first walk collects, from the order of its visits. -/
private theorem foldl_startWalk (f : Fsm) (order : List ℕ) (acc : List ℕ × List TrimEdge) :
    order.foldl (fun acc x => (f.successors x).foldl
        (fun acc y => (startWalk f .startAndEndReachable).relax acc x y)
        ((startWalk f .startAndEndReachable).visit acc x)) acc =
      (acc.1 ++ order.filter (fsmIsend f),
        acc.2 ++ order.flatMap fun x => (f.successors x).map (TrimEdge.mk x)) := by
  have hrelax : ∀ (x : ℕ) (ys : List ℕ) (acc : List ℕ × List TrimEdge),
      ys.foldl (fun acc y => (startWalk f .startAndEndReachable).relax acc x y) acc =
        (acc.1, acc.2 ++ ys.map (TrimEdge.mk x)) := by
    intro x ys
    induction ys with
    | nil => simp
    | cons y ys ih =>
      intro acc
      rw [foldl_cons, ih]
      simp [startWalk]
  induction order generalizing acc with
  | nil => simp
  | cons x order ih =>
    rw [foldl_cons, ih, hrelax]
    cases hx : fsmIsend f x <;> simp [startWalk, hx]

/-- **The first walk** from unmarked states marks what is reachable, and collects the
reachable end states and all the edges of reachable states. -/
theorem markFromStart_spec (hf : f.Wf) (hun : f.Unmarked) {start : ℕ}
    (hstart : f.start = some start) (mode : TrimMode) :
    (∀ s, (markFromStart f mode start).marks s = true ↔ f.Reachable s) ∧
    (mode = .startAndEndReachable →
      (∀ s, s ∈ (markFromStart f mode start).acc.1 ↔ f.Reachable s ∧ f.IsEnd s) ∧
      ∀ e, e ∈ (markFromStart f mode start).acc.2 ↔
        f.Reachable e.source ∧ f.Step e.source e.target) := by
  have hfin := finished_startWalk hf hstart mode
    (Function.update (fun s => (f.state s).visited) start true) ([], [])
  have hmarks : ∀ z, Function.update (fun s => (f.state s).visited) start true z = true ↔
      z = start := by
    intro z
    by_cases hz : z = start
    · simp [hz]
    · simp [hz, hun.visited_eq z]
  have hreach : ∀ z, Walk.Reach (startWalk f mode).succ
      (Function.update (fun s => (f.state s).visited) start true) [start] z ↔
      f.Reachable z := by
    intro z
    rw [Walk.reach_iff_of_marks fun z hz => List.mem_singleton.mpr ((hmarks z).mp hz),
      Fsm.reachable_iff]
    show (∃ p ∈ [start], Relation.ReflTransGen (fun a b => b ∈ f.successors a) p z) ↔ _
    rw [relation_successors]
    simp [hstart]
  refine ⟨fun s => ?_, ?_⟩
  · rw [markFromStart, Walk.marks_run hfin]
    · rw [hreach, hmarks]
      refine or_iff_right_of_imp ?_
      rintro rfl
      exact ⟨[], .base hstart⟩
    · intro p hp
      exact (hmarks p).mpr (mem_singleton.mp hp)
  · rintro rfl
    -- what is collected is read off the order of expansion
    have horder : ∀ z, z ∈ (startWalk f .startAndEndReachable).order (f.statecount + 1)
        ⟨Function.update (fun s => (f.state s).visited) start true, [start], ([], [])⟩ ↔
        f.Reachable z := fun z => (Walk.mem_order hfin).trans (hreach z)
    have hacc : (markFromStart f .startAndEndReachable start).acc = _ :=
      (Walk.acc_run (W := startWalk f .startAndEndReachable) _ _).trans
        (foldl_startWalk f _ ([], []))
    refine ⟨fun s => ?_, fun e => ?_⟩
    · rw [hacc, nil_append, mem_filter, horder]
      rfl
    · rw [hacc]
      show e ∈ List.flatMap _ _ ↔ _
      rw [mem_flatMap]
      constructor
      · intro ⟨x, hx, he⟩
        obtain ⟨y, hy, rfl⟩ := mem_map.mp he
        exact ⟨(horder x).mp hx, mem_successors.mp hy⟩
      · intro ⟨hx, hstep⟩
        exact ⟨e.source, (horder _).mpr hx,
          mem_map.mpr ⟨e.target, mem_successors.mpr hstep, rfl⟩⟩

/-! ## §3 The Second Walk -/

variable {edges : List TrimEdge}

instance : Std.Total cmpEdgesByTo where
  total a b := by
    unfold cmpEdgesByTo
    omega

instance : IsTrans TrimEdge cmpEdgesByTo where
  trans a b c hab hbc := by
    unfold cmpEdgesByTo at *
    omega

/-- Helper: the collected edges as the reverse index has them. -/
private theorem mem_edgesInto (hf : f.Wf)
    (hedges : ∀ e, e ∈ edges ↔ f.Reachable e.source ∧ f.Step e.source e.target) (s t : ℕ) :
    s ∈ edgesInto (edges.insertionSort cmpEdgesByTo) f.statecount t ↔
      f.Reachable s ∧ f.Step s t := by
  have hsorted : (edges.insertionSort cmpEdgesByTo).Pairwise fun a b => a.target ≤ b.target := by
    refine (pairwise_insertionSort cmpEdgesByTo edges).imp ?_
    intro a b hab
    unfold cmpEdgesByTo at hab
    omega
  have hlt : ∀ e ∈ edges.insertionSort cmpEdgesByTo, e.target < f.statecount := by
    intro e he
    obtain ⟨-, o, ho⟩ := (hedges e).mp (mem_insertionSort cmpEdgesByTo |>.mp he)
    exact hf.step_lt ho
  rw [edgesInto, mem_map]
  constructor
  · intro ⟨e, he, hes⟩
    obtain ⟨he, het⟩ := (mem_slice hsorted hlt t e).mp he
    have := (hedges e).mp (mem_insertionSort cmpEdgesByTo |>.mp he)
    rw [hes, het] at this
    exact this
  · intro h
    refine ⟨⟨s, t⟩, (mem_slice hsorted hlt t _).mpr ⟨?_, rfl⟩, rfl⟩
    exact (perm_insertionSort cmpEdgesByTo edges).mem_iff.mpr ((hedges ⟨s, t⟩).mpr h)

/-- Paths of the second walk are paths to an end, read backwards. -/
private theorem steps_edgesInto (hf : f.Wf) {ends : List ℕ}
    (hends : ∀ s, s ∈ ends ↔ f.Reachable s ∧ f.IsEnd s)
    (hedges : ∀ e, e ∈ edges ↔ f.Reachable e.source ∧ f.Step e.source e.target) (n s : ℕ) :
    Steps (edgesInto (edges.insertionSort cmpEdgesByTo) f.statecount) ends n s ↔
      f.Reachable s ∧ f.EndPath n s := by
  constructor
  · intro h
    induction h with
    | source hp => exact ⟨((hends _).mp hp).1, .done ((hends _).mp hp).2⟩
    | step _ hy ih =>
      obtain ⟨hreach, hstep⟩ := (mem_edgesInto hf hedges _ _).mp hy
      exact ⟨hreach, .step hstep ih.2⟩
  · intro ⟨hreach, hpath⟩
    induction hpath with
    | done hend => exact .source ((hends _).mpr ⟨hreach, hend⟩)
    | step hstep _ ih =>
      exact .step (ih (hreach.step hstep)) ((mem_edgesInto hf hedges _ _).mpr ⟨hreach, hstep⟩)

/-- Without edges there is nothing to walk over. -/
private theorem run_distWalk_nil (n fuel : ℕ) (ends : List ℕ) :
    ((distWalk (edgesInto [] n)).run fuel (distInit ends)).marks = (distInit ends).marks ∧
      ((distWalk (edgesInto [] n)).run fuel (distInit ends)).acc = (distInit ends).acc := by
  have hnil : ∀ s, edgesInto [] n s = [] := by
    simp [edgesInto, slice]
  refine Walk.run_invariant (P := fun st => st.marks = (distInit ends).marks ∧
    st.acc = (distInit ends).acc) ?_ fuel _ ⟨rfl, rfl⟩
  intro st x rest _ hinv
  have hexpand : (distWalk (edgesInto [] n)).expand st x rest = { st with pending := rest } := by
    show (edgesInto [] n x).foldl _ _ = _
    rw [hnil]
    rfl
  rw [hexpand]
  exact hinv

/-- **The second walk** marks the reachable states with a path to an end, and finds the
length of the shortest one. -/
theorem markFromEnds_spec (hf : f.Wf) {ends : List ℕ}
    (hends : ∀ s, s ∈ ends ↔ f.Reachable s ∧ f.IsEnd s)
    (hedges : ∀ e, e ∈ edges ↔ f.Reachable e.source ∧ f.Step e.source e.target) (s : ℕ) :
    let back := markFromEnds f.statecount ends (edges.insertionSort cmpEdgesByTo)
    (back.marks s = true ↔ f.Reachable s ∧ f.Live s) ∧
      ∀ d, back.acc s = some d ↔ f.Reachable s ∧ IsLeast {n | f.EndPath n s} d := by
  set sorted := edges.insertionSort cmpEdgesByTo with hsorted
  have hfin : (distWalk (edgesInto sorted f.statecount)).Finished
      (ends.length + f.statecount) (distInit ends) := by
    refine Walk.finished_of_lt (fun x y hy => ?_) (fun p hp => ((hends p).mp hp).2.lt) le_rfl
    exact ((mem_edgesInto hf hedges y x).mp hy).2.source_lt
  -- without edges the walk is left out
  have hback : (markFromEnds f.statecount ends sorted).marks =
        ((distWalk (edgesInto sorted f.statecount)).run
          (ends.length + f.statecount) (distInit ends)).marks ∧
      (markFromEnds f.statecount ends sorted).acc =
        ((distWalk (edgesInto sorted f.statecount)).run
          (ends.length + f.statecount) (distInit ends)).acc := by
    unfold markFromEnds
    split
    · rename_i hnil
      rw [hnil, (run_distWalk_nil _ _ _).1, (run_distWalk_nil _ _ _).2]
      exact ⟨rfl, rfl⟩
    · exact ⟨rfl, rfl⟩
  have hsteps := steps_edgesInto hf hends hedges
  dsimp only
  rw [hback.1, hback.2]
  refine ⟨?_, fun d => ?_⟩
  · rw [marks_distWalk_run hfin]
    simp only [← hsorted] at hsteps
    simp only [hsteps, exists_and_left]
    rfl
  · rw [distWalk_run hfin]
    simp only [← hsorted] at hsteps
    simp only [hsteps]
    constructor
    · intro ⟨⟨hreach, hpath⟩, hleast⟩
      exact ⟨hreach, hpath, fun n hn => hleast ⟨hreach, hn⟩⟩
    · intro ⟨hreach, hpath, hleast⟩
      exact ⟨⟨hreach, hpath⟩, fun n hn => hleast hn.2⟩

/-! ## §4 Trimming -/

variable {mode : TrimMode}

/-- The states a mode is meant to keep. -/
def Fsm.Kept (f : Fsm) (mode : TrimMode) (s : ℕ) : Prop :=
  match mode with
  | .startReachable => f.Reachable s
  | .startAndEndReachable => f.Reachable s ∧ f.Live s

theorem Fsm.Kept.reachable (h : f.Kept mode s) : f.Reachable s := by
  cases mode with
  | startReachable => exact h
  | startAndEndReachable => exact h.1

/-- What leads to a kept state is kept. -/
theorem Fsm.Kept.of_step (hs : f.Reachable s) (hst : f.Step s t) (ht : f.Kept mode t) :
    f.Kept mode s := by
  cases mode with
  | startReachable => exact hs
  | startAndEndReachable =>
    obtain ⟨-, n, hn⟩ := ht
    exact ⟨hs, n + 1, .step hst hn⟩

theorem Fsm.Kept.of_isEnd (hs : f.Reachable s) (hend : f.IsEnd s) : f.Kept mode s := by
  cases mode with
  | startReachable => exact hs
  | startAndEndReachable => exact ⟨hs, 0, .done hend⟩

/-- **Marking** unmarked states marks those to keep. -/
theorem markStates_spec (hf : f.Wf) (hun : f.Unmarked) (mode : TrimMode) (s : ℕ) :
    (markStates f mode).1 s = true ↔ f.Kept mode s := by
  unfold markStates
  cases hstart : f.start with
  | none =>
    rw [fsmGetstart, hstart]
    have hno : ¬ f.Kept mode s := by
      intro h
      obtain ⟨w, hw⟩ := h.reachable
      exact Fsm.not_active_of_start_eq_none hstart w s hw
    simp [hun.visited_eq s, hno]
  | some start =>
    rw [fsmGetstart, hstart]
    obtain ⟨hmarks, hacc⟩ := markFromStart_spec hf hun hstart mode
    cases mode with
    | startReachable => exact hmarks s
    | startAndEndReachable =>
      obtain ⟨hends, hedges⟩ := hacc rfl
      exact (markFromEnds_spec hf hends hedges s).1

theorem markStates_sed (hf : f.Wf) (hun : f.Unmarked) (s d : ℕ) :
    (markStates f .startAndEndReachable).2 s = some d ↔
      f.Reachable s ∧ IsLeast {n | f.EndPath n s} d := by
  unfold markStates
  cases hstart : f.start with
  | none =>
    rw [fsmGetstart, hstart]
    refine iff_of_false (by simp) ?_
    intro ⟨⟨w, hw⟩, _⟩
    exact Fsm.not_active_of_start_eq_none hstart w s hw
  | some start =>
    rw [fsmGetstart, hstart]
    obtain ⟨-, hacc⟩ := markFromStart_spec hf hun hstart .startAndEndReachable
    obtain ⟨hends, hedges⟩ := hacc rfl
    exact (markFromEnds_spec hf hends hedges s).2 d

/-- The renumbering of a trim. -/
def trimMapping (f : Fsm) (mode : TrimMode) : List (Option ℕ) :=
  (compactMapping (fun s => ((f.setVisited (markStates f mode).1).state s).visited)
    f.statecount).1

theorem isSome_trimMapping (hf : f.Wf) (hun : f.Unmarked) (mode : TrimMode) (s : ℕ) :
    (mappingCb (trimMapping f mode) s).isSome = true ↔ f.Kept mode s := by
  rw [trimMapping, mappingCb_compactMapping]
  rcases lt_or_ge s f.statecount with hs | hs
  · rw [Fsm.state_setVisited hs]
    rw [← markStates_spec hf hun mode s]
    cases hm : (markStates f mode).1 s <;> simp [hs]
  · have hno : ¬ f.Kept mode s := by
      intro h
      obtain ⟨w, hw⟩ := h.reachable
      exact absurd (hf.active_lt hw) (not_lt.mpr hs)
    simp [not_lt.mpr hs, hno]

theorem statecount_setVisited (f : Fsm) (marks : ℕ → Bool) :
    (f.setVisited marks).statecount = f.statecount := (f.agrees_setVisited marks).statecount

theorem fsmTrim_of_pos (hpos : 0 < f.statecount) (mode : TrimMode) :
    (fsmTrim f mode).fsm = (fsmCompactStates (f.setVisited (markStates f mode).1) fun s =>
      ((f.setVisited (markStates f mode).1).state s).visited).1.setVisited fun _ => false := by
  unfold fsmTrim
  rw [if_neg hpos.ne']

/-- **Trimming** is a renumbering. -/
theorem fsmTrim_renumbered (hf : f.Wf) (mode : TrimMode) :
    Renumbered f (fsmTrim f mode).fsm (mappingCb (trimMapping f mode)) := by
  rcases Nat.eq_zero_or_pos f.statecount with hzero | hpos
  · have hnil : trimMapping f mode = [] := by
      rw [trimMapping, hzero]
      rfl
    have hfsm : (fsmTrim f mode).fsm = f := by
      unfold fsmTrim
      rw [if_pos hzero]
    have hnone : ∀ s, mappingCb (trimMapping f mode) s = none := by
      intro s
      rw [hnil]
      rfl
    rw [hfsm]
    refine ⟨?_, ?_, ?_, ?_, ?_, ?_, ?_, ?_, hf.endids_below, hf.eager_below, ?_⟩
    any_goals
      simp_all
    cases hs : f.start with
    | none => rfl
    | some s => exact absurd (hf.start_lt hs) (by omega)
  · rw [fsmTrim_of_pos hpos]
    have hagrees := f.agrees_setVisited (markStates f mode).1
    have h := fsmCompactStates_renumbered (f.setVisited (markStates f mode).1)
      (fun s => ((f.setVisited (markStates f mode).1).state s).visited) (hagrees.symm.wf hf)
    rw [statecount_setVisited] at h
    exact h.congr hagrees (Fsm.agrees_setVisited _ _).symm

theorem fsmTrim_wf (hf : f.Wf) (mode : TrimMode) : (fsmTrim f mode).fsm.Wf :=
  (fsmTrim_renumbered hf mode).wf

section Unmarked

variable {f : Fsm} (hf : f.Wf) (hun : f.Unmarked) (mode : TrimMode)
include hf hun

/-- The states active after a word are those before trimming that are kept. -/
theorem fsmTrim_active_iff (hst : mappingCb (trimMapping f mode) s = some t) :
    (fsmTrim f mode).fsm.Active w t ↔ f.Active w s := by
  refine (fsmTrim_renumbered hf mode).active_iff ?_ hst
  intro w s s' o hs hstep hkept
  rw [isSome_trimMapping hf hun] at hkept ⊢
  exact .of_step ⟨w, hs⟩ ⟨o, hstep⟩ hkept

theorem exists_trimMapping (hs : f.Kept mode s) : ∃ t, mappingCb (trimMapping f mode) s = some t :=
  Option.isSome_iff_exists.mp ((isSome_trimMapping hf hun mode s).mpr hs)

/-- **Trimming keeps the language.** -/
theorem fsmTrim_language : (fsmTrim f mode).fsm.language = f.language := by
  have hren := fsmTrim_renumbered hf mode
  ext w
  rw [Fsm.mem_language_iff, Fsm.mem_language_iff]
  constructor
  · intro ⟨t, ht, hend⟩
    obtain ⟨s, hs, hst⟩ := hren.active_of_active ht
    exact ⟨s, hs, (hren.isEnd hst).mp hend⟩
  · intro ⟨s, hs, hend⟩
    obtain ⟨t, hst⟩ := exists_trimMapping hf hun mode (.of_isEnd ⟨w, hs⟩ hend)
    exact ⟨t, (fsmTrim_active_iff hf hun mode hst).mpr hs, (hren.isEnd hst).mpr hend⟩

/-- Trimming keeps the end IDs reported after a word. -/
theorem fsmTrim_endIdsAfter (w : List Byte) :
    (fsmTrim f mode).fsm.endIdsAfter w = f.endIdsAfter w := by
  have hren := fsmTrim_renumbered hf mode
  ext i
  constructor
  · intro ⟨t, ht, hend, hi⟩
    obtain ⟨s, hs, hst⟩ := hren.active_of_active ht
    exact ⟨s, hs, (hren.isEnd hst).mp hend, hren.endids hst ▸ hi⟩
  · intro ⟨s, hs, hend, hi⟩
    obtain ⟨t, hst⟩ := exists_trimMapping hf hun mode (.of_isEnd ⟨w, hs⟩ hend)
    exact ⟨t, (fsmTrim_active_iff hf hun mode hst).mpr hs, (hren.isEnd hst).mpr hend,
      hren.endids hst ▸ hi⟩

/-- If anything is kept, the start state is. -/
theorem fsmTrim_start_isSome (hpos : 0 < (fsmTrim f mode).fsm.statecount) :
    (fsmTrim f mode).fsm.start.isSome = true := by
  have hren := fsmTrim_renumbered hf mode
  obtain ⟨s, hs⟩ := hren.onto hpos
  have hkept : f.Kept mode s :=
    (isSome_trimMapping hf hun mode s).mp (Option.isSome_iff_exists.mpr ⟨0, hs⟩)
  obtain ⟨s₀, hs₀, hpath⟩ := Fsm.reachable_iff.mp hkept.reachable
  -- go back along the path: every state on it is kept
  have hkept₀ : f.Kept mode s₀ := by
    refine Relation.ReflTransGen.head_induction_on
      (motive := fun a _ => f.Reachable a → f.Kept mode a) hpath (fun _ => hkept) ?_
      ⟨[], .base hs₀⟩
    intro a b hab _ ih ha
    exact .of_step ha hab (ih (ha.step hab))
  obtain ⟨t, ht⟩ := exists_trimMapping hf hun mode hkept₀
  rw [hren.start, hs₀, Option.bind_some, ht]
  rfl

theorem fsmTrim_isDfa (hdfa : f.IsDfa) : (fsmTrim f mode).fsm.IsDfa :=
  (fsmTrim_renumbered hf mode).isDfa hdfa (fsmTrim_start_isSome hf hun mode)

omit mode in
/-- The paths to an end are all kept. -/
theorem fsmTrim_endPath_iff {n : ℕ}
    (hst : mappingCb (trimMapping f .startAndEndReachable) s = some t) :
    (fsmTrim f .startAndEndReachable).fsm.EndPath n t ↔ f.EndPath n s := by
  have hren := fsmTrim_renumbered hf .startAndEndReachable
  have hkept : ∀ {s t}, mappingCb (trimMapping f .startAndEndReachable) s = some t →
      f.Kept .startAndEndReachable s := fun {s t} hst =>
    (isSome_trimMapping hf hun _ s).mp (Option.isSome_iff_exists.mpr ⟨t, hst⟩)
  constructor
  · intro hpath
    induction hpath generalizing s with
    | done hend => exact .done ((hren.isEnd hst).mp hend)
    | step hstep _ ih =>
      obtain ⟨s', hs', hu⟩ := (hren.step_iff hst).mp hstep
      exact .step hs' (ih hu)
  · intro hpath
    induction hpath generalizing t with
    | done hend => exact .done ((hren.isEnd hst).mpr hend)
    | @step n s s' hstep hpath ih =>
      obtain ⟨u, hu⟩ := exists_trimMapping hf hun .startAndEndReachable (s := s')
        ⟨(hkept hst).1.step hstep, n, hpath⟩
      exact .step ((hren.step_iff hst).mpr ⟨s', hstep, hu⟩) (ih hu)

omit mode in
/-- **The distances** of a trimmed FSM's states to an end. -/
theorem fsmTrim_sed (ht : t < (fsmTrim f .startAndEndReachable).fsm.statecount) :
    ∃ d, (fsmTrim f .startAndEndReachable).sed[t]? = some (some d) ∧
      IsLeast {n | (fsmTrim f .startAndEndReachable).fsm.EndPath n t} d := by
  have hren := fsmTrim_renumbered hf .startAndEndReachable
  obtain ⟨s, hst⟩ := hren.onto ht
  have hkept : f.Kept .startAndEndReachable s :=
    (isSome_trimMapping hf hun _ s).mp (Option.isSome_iff_exists.mpr ⟨t, hst⟩)
  classical
  obtain ⟨hreach, hlive⟩ := hkept
  have hleast : IsLeast {n | f.EndPath n s} (Nat.find hlive) :=
    ⟨Nat.find_spec hlive, fun n hn => Nat.find_min' hlive hn⟩
  refine ⟨Nat.find hlive, ?_, ?_⟩
  · have hpos : ¬ f.statecount = 0 := (Nat.zero_lt_of_lt (hren.lt hst).1).ne'
    rw [trimMapping, mappingCb_compactMapping] at hst
    split at hst
    · rename_i hs
      unfold fsmTrim
      rw [if_neg hpos]
      dsimp only
      rw [statecount_setVisited, getElem?_map, ← Option.some.inj hst,
        getElem?_filter_range hs.1 hs.2, Option.map_some]
      rw [(markStates_sed hf hun s _).mpr ⟨hreach, hleast⟩]
    · cases hst
  · simp only [fsmTrim_endPath_iff hf hun hst]
    exact hleast

/-! ## §5 Exactness -/

omit hf hun in
theorem fsmTrim_ret_add (hpos : 0 < f.statecount) :
    (fsmTrim f mode).ret + (fsmTrim f mode).fsm.statecount = f.statecount := by
  have hret : (fsmTrim f mode).ret = (fsmCompactStates (f.setVisited (markStates f mode).1) fun s =>
      ((f.setVisited (markStates f mode).1).state s).visited).2 := by
    unfold fsmTrim
    rw [if_neg hpos.ne']
  rw [hret, fsmTrim_of_pos hpos, statecount_setVisited, snd_fsmCompactStates_add,
    statecount_setVisited]

/-- The eager outputs met after a word are those of the kept states active after it. -/
theorem mem_fsmTrim_eagerIdsAfter {i : ℕ} :
    i ∈ (fsmTrim f mode).fsm.eagerIdsAfter w ↔
      ∃ s, f.Kept mode s ∧ f.Active w s ∧ i ∈ f.eagerOutputInfo.get s := by
  have hren := fsmTrim_renumbered hf mode
  constructor
  · intro ⟨t, ht, hi⟩
    obtain ⟨s, hs, hst⟩ := hren.active_of_active ht
    have hkept := (isSome_trimMapping hf hun mode s).mp (Option.isSome_iff_exists.mpr ⟨t, hst⟩)
    exact ⟨s, hkept, hs, hren.eager hst ▸ hi⟩
  · intro ⟨s, hkept, hs, hi⟩
    obtain ⟨t, hst⟩ := exists_trimMapping hf hun mode hkept
    exact ⟨t, (fsmTrim_active_iff hf hun mode hst).mpr hs, hren.eager hst ▸ hi⟩

end Unmarked

/-! ## §6 The Whole -/

/-- What trimming to the states on a path from the start to an end is to do, for a renumbering
of the states. -/
structure Trimmed (f : Fsm) (r : TrimResult) (remap : ℕ → Option ℕ) : Prop where
  /-- Edges, end marks, end IDs and eager outputs of the kept states are theirs -/
  renumbered : Renumbered f r.fsm remap
  kept : ∀ s, (remap s).isSome = true ↔ f.Reachable s ∧ f.Live s
  order : ∀ {s s' t t'}, remap s = some t → remap s' = some t' → s < s' → t < t'
  language : ∀ w, w ∈ r.fsm.language ↔ w ∈ f.language
  endIds : ∀ w, r.fsm.endIdsAfter w = f.endIdsAfter w
  eagerIds : ∀ w i, i ∈ r.fsm.eagerIdsAfter w ↔
    ∃ s, (f.Reachable s ∧ f.Live s) ∧ f.Active w s ∧ i ∈ f.eagerOutputInfo.get s
  removed : r.ret + r.fsm.statecount = f.statecount
  distances : ∀ t < r.fsm.statecount, ∃ d, r.sed[t]? = some (some d) ∧
    IsLeast {n | r.fsm.EndPath n t} d

/-- Four states: `a` leads from the start state to an end, `b` to a dead end, and nothing leads
to the last one. -/
def deadEndFsm : Fsm :=
  let f := fsmAddedgeLiteral (fsmAddedgeLiteral (fsmAddstateBulk fsmNew 4) 0 2 97) 0 1 98
  let f := fsmSetend (fsmAddedgeEpsilon f 3 2) 2 true
  fsmSetstart { f with endidInfo := endidSet f.endidInfo 2 1 } 0

end Libfsm
