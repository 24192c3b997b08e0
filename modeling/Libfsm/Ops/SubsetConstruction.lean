import Libfsm.Fsm.Semantics
import Libfsm.Ops.ClosureAnalysis
import Mathlib.Data.List.Sort

/-!
# The Subset Construction

The main loop of `fsm_determinise_with_config`: a table from interned sets of NFA states to
DFA states, a stack of DFA states whose edges are still to be found, and for each popped
state the analysis of its set.

- `DetMap`: `struct map`, the DFA states found so far
- `detOutput`, `detStep`, `detLoop`: one output, one DFA state, all of them
- `DetInv`: what holds each time a state is popped
- `detLoop_spec`: the loop ends, and every DFA state has the edges of its set
-/

namespace Libfsm

open Lib
open List hiding map nil cons

variable {curr d fuel limit start : ℕ} {os : List AcOutput} {o : AcOutput} {nfa : Fsm}
  {todo : List ℕ}

/-! ## §1 The Loop -/

def hashIss (iss : InternedStateSetId) : ℕ := (hashId iss.toUInt64).toNat

/-- `struct map`.  A `struct mapping` is known by its `dfastate`: `issOf` has the set and
`edges` the edges of each. -/
structure DetMap where
  issOf : Interner InternedStateSetId := { buckets := replicate 4 none }
  edges : List EdgeSet := []

/-- `dfacount` -/
def DetMap.count (map : DetMap) : ℕ := map.issOf.items.length

def mapFind (map : DetMap) (iss : InternedStateSetId) : Option ℕ := map.issOf.find hashIss iss

/-- `map_add` for the next DFA state; a half-full table is grown first. -/
def mapAdd (map : DetMap) (iss : InternedStateSetId) : DetMap where
  issOf := (map.issOf.reserve hashIss (map.count = map.issOf.buckets.length / 2)
    (2 * map.issOf.buckets.length)).add hashIss iss
  edges := map.edges ++ [.null]

/-- Rewrite the edges of one DFA state. -/
def DetMap.modifyEdges (map : DetMap) (d : ℕ) (g : EdgeSet → EdgeSet) : DetMap :=
  { map with edges := map.edges.modify d g }

/-- The edges of a DFA state. -/
def DetMap.edgesOf (map : DetMap) (d : ℕ) : EdgeSet := map.edges.getD d .null

/-- The variables of the main loop. -/
structure DetState where
  map : DetMap := {}
  stack : List ℕ := []
  env : AnalyzeClosuresEnv := {}
  pool : InternedStateSetPool := internedStateSetPoolAlloc

/-- The NFA states a DFA state stands for. -/
def DetState.states (st : DetState) (d : ℕ) : List ℕ :=
  (st.map.issOf.items[d]?).elim [] st.pool.resolve

/-- The body of the loop over outputs: find the DFA state for the set, or add and push it, then add
the edges. -/
def detOutput (stateLimit curr : ℕ) (st : DetState) (o : AcOutput) : Option DetState :=
  match mapFind st.map o.iss with
  | some m =>
    some { st with map := st.map.modifyEdges curr fun edges => edgeSetAddBulk edges o.labels m }
  | none =>
    -- there are too many states
    if stateLimit ≠ 0 ∧ stateLimit < st.map.count then none
    else
      some { st with
        map := (mapAdd st.map o.iss).modifyEdges curr fun edges =>
          edgeSetAddBulk edges o.labels st.map.count
        stack := st.map.count :: st.stack }

/-- The loop over outputs. -/
def detOutputs (stateLimit curr : ℕ) : DetState → List AcOutput → Option DetState
  | st, [] => some st
  | st, o :: os => (detOutput stateLimit curr st o).bind fun st => detOutputs stateLimit curr st os

/-- One iteration of the main loop: analyse the set of `curr` and add its edges. -/
def detStep (nfa : Fsm) (stateLimit : ℕ) (st : DetState) (curr : ℕ) : Option DetState :=
  let iss := st.map.issOf.items.getD curr (.singleton 0)
  let (outputs, env, pool) := analyzeClosuresPairwiseGrouping nfa st.env st.pool iss
  detOutputs stateLimit curr
    { st with
      map := st.map.modifyEdges curr edgeSetAdviseGrowth
      env := env
      pool := pool }
    outputs

/-- `enum fsm_determinise_with_config_res` -/
inductive DeterminiseRes where
  | ok
  | stateLimitReached
  | errno
  deriving DecidableEq, Repr

/-- The main loop. -/
def detLoop (nfa : Fsm) (stateLimit : ℕ) : ℕ → DetState → ℕ → Except DeterminiseRes DetState
  -- not reached when there is fuel for every set of states
  | 0, _, _ => .error .errno
  | fuel + 1, st, curr =>
    match detStep nfa stateLimit st curr with
    | none => .error .stateLimitReached
    | some st =>
      match st.stack with
      | [] => .ok st
      | curr :: stack => detLoop nfa stateLimit fuel { st with stack := stack } curr

/-! ## §2 The Map -/

variable {map : DetMap}

/-- The table stands for the sets found so far, and is at most half full. -/
structure DetMap.Valid (map : DetMap) : Prop where
  interner : Interner.Valid hashIss map.issOf
  size : 4 ≤ map.issOf.buckets.length
  half : map.count ≤ map.issOf.buckets.length / 2
  edges_length : map.edges.length = map.count

theorem DetMap.valid_init : DetMap.Valid {} where
  interner := Interner.valid_empty 4
  size := le_rfl
  half := Nat.zero_le _
  edges_length := rfl

theorem items_mapAdd (map : DetMap) (iss : InternedStateSetId) :
    (mapAdd map iss).issOf.items = map.issOf.items ++ [iss] := rfl

theorem count_mapAdd (map : DetMap) (iss : InternedStateSetId) :
    (mapAdd map iss).count = map.count + 1 := by
  simp [DetMap.count, items_mapAdd]

theorem DetMap.Valid.mapAdd (h : map.Valid) {iss : InternedStateSetId}
    (hnew : mapFind map iss = none) : (mapAdd map iss).Valid := by
  have hsize := h.size
  have hhalf := h.half
  have hcount : map.count = map.issOf.items.length := rfl
  have hlen : (Libfsm.mapAdd map iss).issOf.buckets.length =
      if map.count = map.issOf.buckets.length / 2 then 2 * map.issOf.buckets.length
      else map.issOf.buckets.length := by
    unfold Libfsm.mapAdd Interner.add Interner.reserve
    rw [length_place, length_reserve]
  obtain ⟨hvalid, hlt⟩ := h.interner.reserve (n := 2 * map.issOf.buckets.length)
    (p := map.count = map.issOf.buckets.length / 2) (by omega) (by omega)
  refine ⟨(hvalid.add (h.interner.find_eq_none_iff.mp hnew) hlt).1, ?_, ?_, ?_⟩
  · rw [hlen]
    split <;> omega
  · rw [hlen, count_mapAdd]
    split <;> omega
  · rw [count_mapAdd, ← h.edges_length]
    exact length_append

theorem DetMap.Valid.edgesOf_of_le (h : map.Valid) (hd : map.count ≤ d) :
    map.edgesOf d = .null := by
  unfold DetMap.edgesOf
  rw [getD_eq_getElem?_getD, getElem?_eq_none (h.edges_length.trans_le hd)]
  rfl

theorem edgesOf_mapAdd (map : DetMap) (iss : InternedStateSetId) (d : ℕ) :
    (mapAdd map iss).edgesOf d = map.edgesOf d := by
  unfold DetMap.edgesOf mapAdd
  rcases lt_or_ge d map.edges.length with hd | hd
  · rw [getD_append _ _ _ _ hd]
  · rw [getD_append_right _ _ _ _ hd, getD_eq_default _ _ hd]
    rcases Nat.eq_zero_or_pos (d - map.edges.length) with h0 | h0
    · rw [h0]
      rfl
    · exact getD_eq_default _ _ h0

theorem edgesOf_modifyEdges_self (h : map.Valid) (hd : d < map.count) (g : EdgeSet → EdgeSet) :
    (map.modifyEdges d g).edgesOf d = g (map.edgesOf d) := by
  have hd' : d < map.edges.length := h.edges_length.symm ▸ hd
  unfold DetMap.edgesOf DetMap.modifyEdges
  rw [getD_eq_getElem?_getD, getElem?_modify_eq, getD_eq_getElem?_getD,
    getElem?_eq_getElem hd']
  rfl

theorem edgesOf_modifyEdges_ne (map : DetMap) {d' : ℕ} (hne : d' ≠ d) (g : EdgeSet → EdgeSet) :
    (map.modifyEdges d g).edgesOf d' = map.edgesOf d' := by
  unfold DetMap.edgesOf DetMap.modifyEdges
  simp [hne.symm]

theorem DetMap.Valid.modifyEdges (h : map.Valid) (d : ℕ) (g : EdgeSet → EdgeSet) :
    (map.modifyEdges d g).Valid :=
  ⟨h.interner, h.size, h.half, (length_modify ..).trans h.edges_length⟩

/-! ## §3 One DFA State -/

variable {st st' st₀ : DetState}

/-- The DFA states that are added when there were `m` and will be `n`, the last one on top. -/
def newStates (m n : ℕ) : List ℕ := (range' m (n - m)).reverse

theorem mem_newStates {m n : ℕ} : d ∈ newStates m n ↔ m ≤ d ∧ d < n := by
  rw [newStates, mem_reverse, mem_range'_1]
  omega

theorem newStates_append {l m n : ℕ} (hlm : l ≤ m) (hmn : m ≤ n) :
    newStates m n ++ newStates l m = newStates l n := by
  have happend := List.range'_append_1 (s := l) (m := m - l) (n := n - m)
  rw [Nat.add_sub_cancel' hlm, show m - l + (n - m) = n - l by omega] at happend
  rw [newStates, newStates, newStates, ← reverse_append, happend]

/-- What the loop over outputs has done when it has come past `os`. -/
structure OutputsDone (st₀ : DetState) (curr : ℕ) (os : List AcOutput) (st : DetState) :
    Prop where
  valid : st.map.Valid
  env : st.env = st₀.env
  pool : st.pool = st₀.pool
  grows : st₀.map.issOf.items <+: st.map.issOf.items
  new : ∀ d iss, st₀.map.count ≤ d → st.map.issOf.items[d]? = some iss → ∃ o ∈ os, o.iss = iss
  stack : st.stack = newStates st₀.map.count st.map.count ++ st₀.stack
  known : ∀ o ∈ os, ∃ m : ℕ, st.map.issOf.items[m]? = some o.iss
  edges_frame : ∀ d ≠ curr, st.map.edgesOf d = st₀.map.edgesOf d
  edges_curr : ∀ c e, (st.map.edgesOf curr).HasEdge c e ↔
    (st₀.map.edgesOf curr).HasEdge c e ∨
      ∃ o ∈ os, o.labels.getLsbD c = true ∧ st.map.issOf.items[e]? = some o.iss

theorem OutputsDone.init (h : st.map.Valid) (curr : ℕ) : OutputsDone st curr [] st where
  valid := h
  env := rfl
  pool := rfl
  grows := prefix_rfl
  new d iss hd hget := by
    have := (List.getElem?_eq_some_iff.mp hget).1
    exact absurd this (not_lt.mpr hd)
  stack := by simp [newStates]
  known := by simp
  edges_frame _ _ := rfl
  edges_curr := by simp

/-- Adding the edges for an output whose set is DFA state `m` now. -/
theorem OutputsDone.addEdges {m : ℕ} (h : OutputsDone st₀ curr os st) (st' : DetState)
    (hcurr : curr < st₀.map.count) (hmap : st'.map.Valid) (henv : st'.env = st.env)
    (hpool : st'.pool = st.pool)
    (hitems : st.map.issOf.items <+: st'.map.issOf.items)
    (hm : st'.map.issOf.items[m]? = some o.iss)
    (hnew : ∀ d iss, st.map.count ≤ d → st'.map.issOf.items[d]? = some iss → o.iss = iss)
    (hstack : st'.stack = newStates st.map.count st'.map.count ++ st.stack)
    (hedges : ∀ d, st'.map.edgesOf d = st.map.edgesOf d) :
    OutputsDone st₀ curr (os ++ [o]) { st' with
      map := st'.map.modifyEdges curr fun edges => edgeSetAddBulk edges o.labels m } := by
  have hcount : st₀.map.count ≤ st.map.count := h.grows.length_le
  have hcount' : st.map.count ≤ st'.map.count := hitems.length_le
  have hkeep : ∀ {d : ℕ} {iss}, st.map.issOf.items[d]? = some iss →
      st'.map.issOf.items[d]? = some iss := by
    intro d iss hget
    obtain ⟨more, hmore⟩ := hitems
    rw [← hmore, getElem?_append_left (List.getElem?_eq_some_iff.mp hget).1, hget]
  have hinj : ∀ {d d' : ℕ} {iss}, st'.map.issOf.items[d]? = some iss →
      st'.map.issOf.items[d']? = some iss → d = d' := by
    intro d d' iss hd hd'
    exact (getElem?_inj (List.getElem?_eq_some_iff.mp hd).1 hmap.interner.nodup).mp
      (hd.trans hd'.symm)
  refine ⟨hmap.modifyEdges _ _, henv.trans h.env, hpool.trans h.pool, h.grows.trans hitems,
    ?_, ?_, ?_, ?_, ?_⟩
  · intro d iss hd hget
    rcases lt_or_ge d st.map.count with hlt | hge
    · obtain ⟨more, hmore⟩ := hitems
      have hget : st'.map.issOf.items[d]? = some iss := hget
      rw [← hmore, getElem?_append_left hlt] at hget
      obtain ⟨o', ho', heq⟩ := h.new d iss hd hget
      exact ⟨o', mem_append_left _ ho', heq⟩
    · exact ⟨o, by simp, hnew d iss hge hget⟩
  · show st'.stack = newStates _ st'.map.count ++ _
    rw [hstack, h.stack, ← append_assoc, newStates_append hcount hcount']
  · intro o' ho'
    rcases mem_append.mp ho' with ho' | ho'
    · obtain ⟨m', hm'⟩ := h.known o' ho'
      exact ⟨m', hkeep hm'⟩
    · rw [List.mem_singleton.mp ho']
      exact ⟨m, hm⟩
  · intro d hd
    rw [edgesOf_modifyEdges_ne _ hd, hedges, h.edges_frame d hd]
  · intro c e
    -- the sets met before have kept their DFA states
    have hold : (∃ o' ∈ os, o'.labels.getLsbD c = true ∧ st.map.issOf.items[e]? = some o'.iss) ↔
        ∃ o' ∈ os, o'.labels.getLsbD c = true ∧ st'.map.issOf.items[e]? = some o'.iss := by
      constructor
      · intro ⟨o', ho', hc, he⟩
        exact ⟨o', ho', hc, hkeep he⟩
      · intro ⟨o', ho', hc, he⟩
        obtain ⟨m', hm'⟩ := h.known o' ho'
        rw [hinj he (hkeep hm')]
        exact ⟨o', ho', hc, hm'⟩
    have hlast : e = m ↔ st'.map.issOf.items[e]? = some o.iss := by
      constructor
      · intro he
        rw [he]
        exact hm
      · intro he
        exact hinj he hm
    show ((st'.map.modifyEdges curr _).edgesOf curr).HasEdge c e ↔ _ ∨ ∃ o' ∈ os ++ [o],
      o'.labels.getLsbD c = true ∧ st'.map.issOf.items[e]? = some o'.iss
    rw [edgesOf_modifyEdges_self hmap (hcurr.trans_le (hcount.trans hcount')),
      hasEdge_edgeSetAddBulk, hedges, h.edges_curr, hold, hlast, or_assoc,
      and_comm (a := st'.map.issOf.items[e]? = some o.iss)]
    simp only [mem_append, List.mem_singleton, or_and_right, exists_or, exists_eq_left]

/-- One output keeps the invariant of the loop over outputs. -/
theorem OutputsDone.step (h : OutputsDone st₀ curr os st) (hcurr : curr < st₀.map.count)
    (hout : detOutput limit curr st o = some st') : OutputsDone st₀ curr (os ++ [o]) st' := by
  unfold detOutput at hout
  split at hout
  · -- the set is known
    rename_i m hfind
    cases hout
    have hm := h.valid.interner.find_eq_some_iff.mp hfind
    refine h.addEdges st hcurr h.valid rfl rfl prefix_rfl hm ?_ (by simp [newStates])
      fun d => rfl
    intro d iss hd hget
    have := (List.getElem?_eq_some_iff.mp hget).1
    exact absurd this (not_lt.mpr hd)
  · rename_i hfind
    split at hout
    · cases hout
    · -- the set is new
      cases hout
      have hitems := items_mapAdd st.map o.iss
      refine h.addEdges ⟨mapAdd st.map o.iss, st.map.count :: st.stack, st.env, st.pool⟩
        hcurr (h.valid.mapAdd hfind) rfl rfl ⟨[o.iss], hitems.symm⟩ ?_ ?_ ?_
        (edgesOf_mapAdd st.map o.iss)
      · exact getElem?_concat_length
      · intro d iss hd hget
        rw [hitems, getElem?_append_right hd] at hget
        exact (List.mem_singleton.mp (mem_of_getElem? hget)).symm
      · simp [newStates, count_mapAdd]

theorem detOutputs_done {os' : List AcOutput} (h : OutputsDone st₀ curr os st)
    (hcurr : curr < st₀.map.count) (hout : detOutputs limit curr st os' = some st') :
    OutputsDone st₀ curr (os ++ os') st' := by
  induction os' generalizing os st with
  | nil =>
    cases hout
    rwa [append_nil]
  | cons o os' ih =>
    obtain ⟨st₁, hst₁, hout⟩ := Option.bind_eq_some_iff.mp hout
    rw [← singleton_append, ← append_assoc]
    exact ih (h.step hcurr hst₁) hout

/-- Without a limit no output is refused. -/
theorem exists_detOutputs (curr : ℕ) (st : DetState) (os : List AcOutput) :
    ∃ st', detOutputs 0 curr st os = some st' := by
  induction os generalizing st with
  | nil => exact ⟨st, rfl⟩
  | cons o os ih =>
    have hone : ∃ st₁, detOutput 0 curr st o = some st₁ := by
      unfold detOutput
      split
      · exact ⟨_, rfl⟩
      · exact ⟨_, if_neg fun h => h.1 rfl⟩
    obtain ⟨st₁, hst₁⟩ := hone
    obtain ⟨st', hst'⟩ := ih st₁
    exact ⟨st', Option.bind_eq_some_iff.mpr ⟨st₁, hst₁, hst'⟩⟩

/-! ## §4 All DFA States -/

/-- The edges of a DFA state are those of its set: each label with a move leads to the DFA
state for the set of all destinations. -/
structure Explored (nfa : Fsm) (st : DetState) (d : ℕ) : Prop where
  sound : ∀ c e, (st.map.edgesOf d).HasEdge c e → e < st.map.count ∧
    ∀ t, t ∈ st.states e ↔ ∃ s ∈ st.states d, nfa.Edge s c t
  complete : ∀ c s t, s ∈ st.states d → nfa.Edge s c t → ∃ e, (st.map.edgesOf d).HasEdge c e

/-- A set of states as the analysis hands it on. -/
structure ProperSet (nfa : Fsm) (states : List ℕ) : Prop where
  nonempty : states ≠ []
  ascending : states.Pairwise (· < ·)
  lt : ∀ s ∈ states, s < nfa.statecount

/-- What holds when the DFA states `todo` are still to be explored. -/
structure DetInv (nfa : Fsm) (start : ℕ) (st : DetState) (todo : List ℕ) : Prop where
  map : st.map.Valid
  env : st.env.Valid nfa
  pool : st.pool.Valid
  has : ∀ (d : ℕ) iss, st.map.issOf.items[d]? = some iss → st.pool.Has iss
  count_pos : 0 < st.map.count
  start : st.states 0 = [start]
  proper : ∀ d < st.map.count, ProperSet nfa (st.states d)
  entered : ∀ d < st.map.count, d = 0 ∨ ∃ p < d, ∃ c, (st.map.edgesOf p).HasEdge c d
  todo_nodup : todo.Nodup
  todo_lt : ∀ d ∈ todo, d < st.map.count
  pending : ∀ d ∈ todo, ∀ c e, ¬ (st.map.edgesOf d).HasEdge c e
  done : ∀ d < st.map.count, d ∉ todo → Explored nfa st d

theorem DetState.states_eq {iss : InternedStateSetId} (h : st.map.issOf.items[d]? = some iss) :
    st.states d = st.pool.resolve iss := by
  rw [DetState.states, h]
  rfl

/-- A DFA state that was explored stays so while others are added. -/
theorem Explored.mono (h : Explored nfa st d) (hd : d < st.map.count)
    (hcount : st.map.count ≤ st'.map.count)
    (hstates : ∀ e < st.map.count, st'.states e = st.states e)
    (hedges : st'.map.edgesOf d = st.map.edgesOf d) : Explored nfa st' d where
  sound c e he := by
    rw [hedges] at he
    obtain ⟨hlt, hmem⟩ := h.sound c e he
    refine ⟨hlt.trans_le hcount, ?_⟩
    rw [hstates e hlt, hstates d hd]
    exact hmem
  complete c s t hs ht := by
    rw [hedges]
    rw [hstates d hd] at hs
    exact h.complete c s t hs ht

/-- The sets of the outputs are proper. -/
theorem Analyzed.properSet (hnfa : nfa.Wf) {env env' : AnalyzeClosuresEnv}
    {pool pool' : InternedStateSetPool} {states : List ℕ} {outputs : List AcOutput}
    (h : Analyzed nfa env pool states outputs env' pool') (ho : o ∈ outputs) :
    ProperSet nfa (pool'.resolve o.iss) := by
  have hp : (⟨pool'.resolve o.iss, o.labels⟩ : Piece) ∈
      outputs.map fun o => ⟨pool'.resolve o.iss, o.labels⟩ := mem_map.mpr ⟨o, ho, rfl⟩
  obtain ⟨hlabels, hdst, hasc⟩ := h.partition.proper _ hp
  refine ⟨hdst, hasc, fun t ht => ?_⟩
  obtain ⟨c, hc⟩ := (symbols_ne_zero_iff _).mp hlabels
  obtain ⟨s, -, hst⟩ := (h.rel c t).mp ⟨_, hp, hc, ht⟩
  exact hnfa.edge_lt hst

/-- What one iteration does.  The outputs of the analysis become the edges of `curr`; the sets
among them that are new become DFA states and go on the stack. -/
structure Stepped (nfa : Fsm) (st : DetState) (curr : ℕ) (outputs : List AcOutput)
    (st' : DetState) : Prop where
  analyzed : Analyzed nfa st.env st.pool (st.states curr) outputs st'.env st'.pool
  valid : st'.map.Valid
  count : st.map.count ≤ st'.map.count
  old : ∀ e < st.map.count, st'.map.issOf.items[e]? = st.map.issOf.items[e]?
  states : ∀ e < st.map.count, st'.states e = st.states e
  new : ∀ d, st.map.count ≤ d → d < st'.map.count → ∃ o ∈ outputs,
    st'.map.issOf.items[d]? = some o.iss
  known : ∀ o ∈ outputs, ∃ m : ℕ, st'.map.issOf.items[m]? = some o.iss
  edges_frame : ∀ d ≠ curr, st'.map.edgesOf d = st.map.edgesOf d
  edges_curr : ∀ c e, (st'.map.edgesOf curr).HasEdge c e ↔
    ∃ o ∈ outputs, o.labels.getLsbD c = true ∧ st'.map.issOf.items[e]? = some o.iss
  stack : st'.stack = newStates st.map.count st'.map.count ++ st.stack

theorem detStep_stepped (h : DetInv nfa start st (curr :: st.stack))
    (hstep : detStep nfa limit st curr = some st') :
    ∃ outputs, Stepped nfa st curr outputs st' := by
  have hcurr : curr < st.map.count := h.todo_lt curr mem_cons_self
  -- the set of `curr`, and its analysis
  have hiss : st.map.issOf.items[curr]? = some (st.map.issOf.items.getD curr (.singleton 0)) := by
    rw [getElem?_eq_getElem hcurr, getD_eq_getElem _ _ hcurr]
  have hset := DetState.states_eq hiss
  have hne : st.pool.resolve (st.map.issOf.items.getD curr (.singleton 0)) ≠ [] :=
    hset ▸ (h.proper curr hcurr).nonempty
  have hA := analyzeClosuresPairwiseGrouping_spec h.env h.pool hne
  unfold detStep at hstep
  dsimp only at hstep
  generalize analyzeClosuresPairwiseGrouping nfa st.env st.pool
    (st.map.issOf.items.getD curr (.singleton 0)) = r at hA hstep
  obtain ⟨outputs, env, pool⟩ := r
  rw [← hset] at hA
  -- the outputs
  have hdone := detOutputs_done (.init (h.map.modifyEdges curr edgeSetAdviseGrowth) curr)
    (by exact hcurr) hstep
  have hpool : st'.pool = pool := hdone.pool
  have henv : st'.env = env := hdone.env
  rw [← hpool, ← henv] at hA
  have hold : ∀ e < st.map.count, st'.map.issOf.items[e]? = st.map.issOf.items[e]? := by
    intro e he
    obtain ⟨more, hmore⟩ := hdone.grows
    rw [← hmore]
    exact getElem?_append_left he
  refine ⟨outputs, hA, hdone.valid, hdone.grows.length_le, hold, ?_, ?_, hdone.known, ?_, ?_,
    hdone.stack⟩
  · intro e he
    have hget : st.map.issOf.items[e]? = some st.map.issOf.items[e] :=
      getElem?_eq_getElem he
    rw [DetState.states_eq hget, DetState.states_eq ((hold e he).trans hget)]
    exact (h.has e _ hget).resolve_eq hA.pool_grows
  · intro d hd hlt
    have hget : st'.map.issOf.items[d]? = some st'.map.issOf.items[d] :=
      getElem?_eq_getElem hlt
    obtain ⟨o, ho, heq⟩ := hdone.new d _ hd hget
    exact ⟨o, ho, heq ▸ hget⟩
  · intro d hd
    rw [hdone.edges_frame d hd]
    exact edgesOf_modifyEdges_ne _ hd _
  · -- `curr` was pending, so it had no edges
    intro c e
    rw [hdone.edges_curr]
    have hbefore : ¬ ((st.map.modifyEdges curr edgeSetAdviseGrowth).edgesOf curr).HasEdge c e := by
      rw [edgesOf_modifyEdges_self h.map hcurr, hasEdge_edgeSetAdviseGrowth]
      exact h.pending curr mem_cons_self c e
    exact or_iff_right hbefore

namespace Stepped

variable {outputs : List AcOutput} (hs : Stepped nfa st curr outputs st')

include hs

/-- The DFA state of the iteration has all its edges. -/
theorem explored (hcurr : curr < st.map.count) : Explored nfa st' curr := by
  constructor
  · intro c e he
    obtain ⟨o, ho, hc, hget⟩ := (hs.edges_curr c e).mp he
    refine ⟨(List.getElem?_eq_some_iff.mp hget).1, fun t => ?_⟩
    rw [DetState.states_eq hget, hs.states curr hcurr, ← hs.analyzed.rel c t]
    exact hs.analyzed.partition.mem_dst_iff (mem_map.mpr ⟨o, ho, rfl⟩) hc
  · intro c s t hst ht
    rw [hs.states curr hcurr] at hst
    obtain ⟨p, hp, hc, -⟩ := (hs.analyzed.rel c t).mpr ⟨s, hst, ht⟩
    obtain ⟨o, ho, rfl⟩ := mem_map.mp hp
    obtain ⟨m, hm⟩ := hs.known o ho
    exact ⟨m, (hs.edges_curr c m).mpr ⟨o, ho, hc, hm⟩⟩

/-- A new DFA state is entered from `curr`. -/
theorem entered (h : DetInv nfa start st (curr :: st.stack)) (hd : d < st'.map.count) :
    d = 0 ∨ ∃ p < d, ∃ c, (st'.map.edgesOf p).HasEdge c d := by
  rcases lt_or_ge d st.map.count with hlt | hge
  · rcases h.entered d hlt with h0 | ⟨p, hp, c, hpc⟩
    · exact Or.inl h0
    · have hne : p ≠ curr := fun heq => h.pending p (heq ▸ mem_cons_self) c d hpc
      exact Or.inr ⟨p, hp, c, hs.edges_frame p hne ▸ hpc⟩
  · obtain ⟨o, ho, hget⟩ := hs.new d hge hd
    have hlabels := (hs.analyzed.partition.proper _ (mem_map.mpr ⟨o, ho, rfl⟩)).labels
    obtain ⟨c, hc⟩ := (symbols_ne_zero_iff _).mp hlabels
    exact Or.inr ⟨curr, (h.todo_lt curr mem_cons_self).trans_le hge, c,
      (hs.edges_curr c d).mpr ⟨o, ho, hc, hget⟩⟩

/-- Neither the new nor the waiting DFA states have edges. -/
theorem pending (h : DetInv nfa start st (curr :: st.stack)) (hd : d ∈ st'.stack) (c : Byte)
    (e : ℕ) : ¬ (st'.map.edgesOf d).HasEdge c e := by
  have hcurr : curr < st.map.count := h.todo_lt curr mem_cons_self
  rw [hs.stack] at hd
  rcases mem_append.mp hd with hd | hd
  · have hge := (mem_newStates.mp hd).1
    rw [hs.edges_frame d (by omega), h.map.edgesOf_of_le hge]
    exact hasEdge_null c e
  · have hne : d ≠ curr := fun heq => (nodup_cons.mp h.todo_nodup).1 (heq ▸ hd)
    rw [hs.edges_frame d hne]
    exact h.pending d (mem_cons_of_mem _ hd) c e

/-- A DFA state that is not on the stack was explored before, or is `curr`. -/
theorem done (h : DetInv nfa start st (curr :: st.stack)) (hd : d < st'.map.count)
    (hnot : d ∉ st'.stack) : Explored nfa st' d := by
  rw [hs.stack] at hnot
  by_cases hdc : d = curr
  · exact hdc ▸ hs.explored (h.todo_lt curr mem_cons_self)
  · have hlt : d < st.map.count := by
      by_contra hge
      exact hnot (mem_append_left _ (mem_newStates.mpr ⟨not_lt.mp hge, hd⟩))
    have hnot' : d ∉ curr :: st.stack := by
      intro hmem
      rcases mem_cons.mp hmem with heq | hmem
      · exact hdc heq
      · exact hnot (mem_append_right _ hmem)
    exact (h.done d hlt hnot').mono hlt hs.count hs.states (hs.edges_frame d hdc)

end Stepped

/-- One iteration explores the DFA state it is given. -/
theorem detStep_inv (hnfa : nfa.Wf) (h : DetInv nfa start st (curr :: st.stack))
    (hstep : detStep nfa limit st curr = some st') :
    DetInv nfa start st' st'.stack ∧
      st'.stack.length + st.map.count = st.stack.length + st'.map.count := by
  obtain ⟨outputs, hs⟩ := detStep_stepped h hstep
  have hA := hs.analyzed
  have hcount := hs.count
  refine ⟨⟨hs.valid, hA.env_valid, hA.pool_valid, ?_, ?_, ?_, ?_, fun d hd => hs.entered h hd, ?_,
    ?_, fun d hd => hs.pending h hd, fun d hd hnot => hs.done h hd hnot⟩, ?_⟩
  · intro d iss hget
    rcases lt_or_ge d st.map.count with hlt | hge
    · exact (h.has d iss ((hs.old d hlt).symm.trans hget)).mono hA.pool_grows
    -- a new DFA state is one of the outputs
    · obtain ⟨o, ho, ho'⟩ := hs.new d hge (List.getElem?_eq_some_iff.mp hget).1
      cases ho'.symm.trans hget
      exact hA.has o ho
  · exact h.count_pos.trans_le hcount
  · rw [hs.states 0 h.count_pos, h.start]
  · intro d hd
    rcases lt_or_ge d st.map.count with hlt | hge
    · rw [hs.states d hlt]
      exact h.proper d hlt
    · obtain ⟨o, ho, hget⟩ := hs.new d hge hd
      rw [DetState.states_eq hget]
      exact hA.properSet hnfa ho
  · rw [hs.stack]
    refine nodup_append.mpr ⟨nodup_reverse.mpr nodup_range',
      (nodup_cons.mp h.todo_nodup).2, ?_⟩
    intro d hd d' hd' heq
    have hlt := h.todo_lt d' (mem_cons_of_mem _ hd')
    have hge := (mem_newStates.mp hd).1
    omega
  · intro d hd
    rw [hs.stack] at hd
    rcases mem_append.mp hd with hd | hd
    · exact (mem_newStates.mp hd).2
    · exact (h.todo_lt d (mem_cons_of_mem _ hd)).trans_le hcount
  · rw [hs.stack, length_append, newStates, length_reverse, length_range']
    omega

/-- The set determines the list, the list its number, and the number the DFA state. -/
theorem DetInv.states_inj (h : DetInv nfa start st todo) {e : ℕ} (hd : d < st.map.count)
    (he : e < st.map.count) (heq : ∀ s, s ∈ st.states d ↔ s ∈ st.states e) : d = e := by
  have hlist : st.states d = st.states e :=
    List.Pairwise.eq_of_mem_iff (h.proper d hd).ascending (h.proper e he).ascending heq
  have hiss : st.map.issOf.items[d]? = some st.map.issOf.items[d] := getElem?_eq_getElem hd
  have hiss' : st.map.issOf.items[e]? = some st.map.issOf.items[e] := getElem?_eq_getElem he
  rw [DetState.states_eq hiss, DetState.states_eq hiss'] at hlist
  have hnum := h.pool.resolve_injOn (h.has d _ hiss) (h.has e _ hiss') hlist
  rw [hnum] at hiss
  exact (getElem?_inj hd h.map.interner.nodup).mp (hiss.trans hiss'.symm)

/-- There are no more DFA states than sets of NFA states. -/
theorem DetInv.count_le (h : DetInv nfa start st todo) : st.map.count ≤ 2 ^ nfa.statecount := by
  have hcard : (Finset.range st.map.count).card ≤
      (Finset.range nfa.statecount).powerset.card := by
    apply Finset.card_le_card_of_injOn fun d => (st.states d).toFinset
    · intro d hd
      have hd := Finset.mem_range.mp hd
      refine Finset.mem_powerset.mpr fun s hs => ?_
      exact Finset.mem_range.mpr ((h.proper d hd).lt s (mem_toFinset.mp hs))
    · intro d hd e he heq
      apply h.states_inj (Finset.mem_range.mp hd) (Finset.mem_range.mp he)
      intro s
      rw [← mem_toFinset, ← mem_toFinset]
      exact iff_of_eq (congrArg (s ∈ ·) heq)
  rwa [Finset.card_range, Finset.card_powerset, Finset.card_range] at hcard

theorem DetInv.setStack (h : DetInv nfa start st todo) (stack : List ℕ) :
    DetInv nfa start { st with stack := stack } todo :=
  ⟨h.map, h.env, h.pool, h.has, h.count_pos, h.start, h.proper, h.entered, h.todo_nodup,
    h.todo_lt, h.pending, fun d hd hnot => ⟨(h.done d hd hnot).sound, (h.done d hd hnot).complete⟩⟩

/-- The loop ends with every DFA state explored.  The fuel needed is the number of DFA
states that can still be explored. -/
theorem detLoop_spec (hnfa : nfa.Wf) (h : DetInv nfa start st (curr :: st.stack))
    (hfuel : 2 ^ nfa.statecount + st.stack.length + 1 ≤ fuel + st.map.count) :
    ∃ st', detLoop nfa 0 fuel st curr = .ok st' ∧ DetInv nfa start st' [] := by
  induction fuel generalizing st curr with
  | zero =>
    have := h.count_le
    omega
  | succ fuel ih =>
    obtain ⟨st₁, hst₁⟩ : ∃ st₁, detStep nfa 0 st curr = some st₁ := by
      exact exists_detOutputs _ _ _
    obtain ⟨hinv, hlen⟩ := detStep_inv hnfa h hst₁
    unfold detLoop
    rw [hst₁]
    dsimp only
    cases hstack : st₁.stack with
    | nil => exact ⟨st₁, rfl, hstack ▸ hinv⟩
    | cons curr' stack =>
      rw [hstack] at hinv hlen
      apply ih (hinv.setStack stack)
      rw [length_cons] at hlen
      show _ + stack.length + 1 ≤ fuel + st₁.map.count
      omega

end Libfsm
