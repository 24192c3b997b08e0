import Libfsm.Adt.EdgeSet
import Libfsm.Fsm.Tables

/-!
# The FSM Record

`struct fsm` and `struct fsm_state` of `internal.h`, with the functions that read and
write single states, edges and marks.

- `FsmState`, `Fsm`: the records
- `fsmAddstate`, `fsmSetend`, `fsmAddedgeEpsilon`, …: the writers
- `fsmIsend`, `fsmIsdfa`, `fsmIscomplete`, …: the predicates, with `fsmAll`, `fsmHas` and
  `fsmCount` that walk over all states
- `Fsm.Edge`, `Fsm.Eps`, `Fsm.IsEnd`: the relations the record stands for
- `Fsm.Wf`: every state number stored in the record is the number of a state

State numbers are natural numbers and allocation succeeds, so a function that can only
fail for want of memory returns its result directly.  A state number outside of the array
reads as a state without edges; well-formed records never do that.
-/

namespace Libfsm

open Lib
open List hiding nil cons

variable {s t : ℕ}

/-! ## §1 Records -/

/-- `struct fsm_state` -/
structure FsmState where
  /-- Labelled edges -/
  edges : EdgeSet := .null
  /-- Epsilon edges -/
  epsilons : StateSet := .null
  /-- The end mark -/
  isEnd : Bool := false
  /-- The traversal mark, "meaningful within one particular transformation only" -/
  visited : Bool := false
  /-- Whether the eager output table has an ID for this state -/
  hasEagerOutputs : Bool := false
  deriving DecidableEq

/-- The state `fsm_addstate` writes: no edges and no marks. -/
def FsmState.fresh : FsmState := {}

@[simp] theorem FsmState.edges_fresh : FsmState.fresh.edges = .null := rfl
@[simp] theorem FsmState.epsilons_fresh : FsmState.fresh.epsilons = .null := rfl
@[simp] theorem FsmState.isEnd_fresh : FsmState.fresh.isEnd = false := rfl
@[simp] theorem FsmState.visited_fresh : FsmState.fresh.visited = false := rfl

def fsmDefaultStatealloc : ℕ := 128

/-- `struct fsm`.  The states in use are `states`; `statealloc` is the allocated size. -/
structure Fsm where
  states : List FsmState := []
  statealloc : ℕ := fsmDefaultStatealloc
  endcount : ℕ := 0
  /-- `hasstart` and `start` -/
  start : Option ℕ := none
  captureInfo : CaptureInfo := {}
  endidInfo : IdTable := ∅
  eagerOutputInfo : IdTable := ∅

variable {f : Fsm}

namespace Fsm

/-- `fsm->statecount` -/
def statecount (f : Fsm) : ℕ := f.states.length

/-- `fsm->states[s]` -/
def state (f : Fsm) (s : ℕ) : FsmState := f.states.getD s .fresh

/-- There is an edge on `c` from `s` to `t`. -/
def Edge (f : Fsm) (s : ℕ) (c : Byte) (t : ℕ) : Prop := (f.state s).edges.HasEdge c t

/-- There is an epsilon edge from `s` to `t`. -/
def Eps (f : Fsm) (s t : ℕ) : Prop := t ∈ (f.state s).epsilons

/-- `s` carries the end mark. -/
def IsEnd (f : Fsm) (s : ℕ) : Prop := (f.state s).isEnd = true

instance (f : Fsm) (s : ℕ) (c : Byte) (t : ℕ) : Decidable (f.Edge s c t) :=
  inferInstanceAs (Decidable ((f.state s).edges.HasEdge c t))

instance (f : Fsm) (s t : ℕ) : Decidable (f.Eps s t) :=
  inferInstanceAs (Decidable (t ∈ (f.state s).epsilons))

instance (f : Fsm) (s : ℕ) : Decidable (f.IsEnd s) :=
  inferInstanceAs (Decidable ((f.state s).isEnd = true))

/-- Every state number in the record is the number of a state. -/
structure Wf (f : Fsm) : Prop where
  start_lt : ∀ {s}, f.start = some s → s < f.statecount
  edge_lt : ∀ {s c t}, f.Edge s c t → t < f.statecount
  eps_lt : ∀ {s t}, f.Eps s t → t < f.statecount
  endids_below : f.endidInfo.Below f.statecount
  eager_below : f.eagerOutputInfo.Below f.statecount

/-- Well-formedness as a test that can be run. -/
def wfCheck (f : Fsm) : Bool :=
  (f.start.all fun s => decide (s < f.statecount)) &&
    (f.states.all fun st =>
      ((edgeSetGroups st.edges).all fun g => decide (g.toState < f.statecount)) &&
        st.epsilons.toList.all fun t => decide (t < f.statecount)) &&
    (f.endidInfo.keys.all fun s => decide (s < f.statecount)) &&
    f.eagerOutputInfo.keys.all fun s => decide (s < f.statecount)

theorem state_of_le (h : f.statecount ≤ s) : f.state s = .fresh := by
  unfold state
  rw [getD_eq_getElem?_getD, getElem?_eq_none h, Option.getD_none]

theorem state_eq_getElem (h : s < f.states.length) : f.state s = f.states[s] := by
  unfold state
  rw [getD_eq_getElem?_getD, getElem?_eq_getElem h, Option.getD_some]

/-- A state with an edge, an epsilon edge or an end mark is in the array. -/
theorem lt_of_state_ne (h : f.state s ≠ .fresh) : s < f.statecount := by
  by_contra hge
  exact h (state_of_le (Nat.le_of_not_lt hge))

theorem Edge.source_lt {c : Byte} (h : f.Edge s c t) : s < f.statecount := by
  apply lt_of_state_ne
  intro h'
  rw [Edge, h'] at h
  exact hasEdge_null c t h

theorem Eps.source_lt (h : f.Eps s t) : s < f.statecount := by
  apply lt_of_state_ne
  intro h'
  rw [Eps, h'] at h
  exact notMem_null t h

theorem IsEnd.lt (h : f.IsEnd s) : s < f.statecount := by
  apply lt_of_state_ne
  intro h'
  rw [IsEnd, h'] at h
  cases h

theorem state_mem (h : s < f.statecount) : f.state s ∈ f.states := by
  rw [state_eq_getElem h]
  exact getElem_mem h

private theorem below_of_keys_all {m : IdTable} {n : ℕ}
    (h : (m.keys.all fun s => decide (s < n)) = true) : m.Below n := by
  intro s hs
  have hnot : s ∉ m.keys := by
    intro hmem
    have := all_eq_true.mp h s hmem
    simp only [decide_eq_true_eq] at this
    omega
  have hnone : m.lookup s = none := AList.lookup_eq_none.mpr hnot
  rw [IdTable.get, hnone, Option.getD_none]

theorem wf_of_wfCheck (h : f.wfCheck = true) : f.Wf := by
  unfold wfCheck at h
  simp only [Bool.and_eq_true] at h
  obtain ⟨⟨⟨hstart, hstates⟩, hend⟩, heager⟩ := h
  refine ⟨?_, ?_, ?_, below_of_keys_all hend, below_of_keys_all heager⟩
  · intro s hs
    rw [hs] at hstart
    simpa using hstart
  · intro s c t ht
    have hst := all_eq_true.mp hstates _ (state_mem ht.source_lt)
    obtain ⟨g, hg, rfl⟩ := exists_mem_edgeSetGroups_iff.mpr ⟨c, ht⟩
    rw [Bool.and_eq_true] at hst
    simpa using all_eq_true.mp hst.1 g hg
  · intro s t ht
    have hst := all_eq_true.mp hstates _ (state_mem ht.source_lt)
    rw [Bool.and_eq_true] at hst
    simpa using all_eq_true.mp hst.2 t ht

/-- Rewrite one state in place. -/
def modifyState (f : Fsm) (s : ℕ) (g : FsmState → FsmState) : Fsm :=
  { f with states := f.states.modify s g }

section

variable (f : Fsm) (s : ℕ) (g : FsmState → FsmState)

@[simp] theorem statecount_modifyState : (f.modifyState s g).statecount = f.statecount := by
  simp [modifyState, statecount]

@[simp] theorem start_modifyState : (f.modifyState s g).start = f.start := rfl

@[simp] theorem endidInfo_modifyState : (f.modifyState s g).endidInfo = f.endidInfo := rfl

@[simp] theorem eagerOutputInfo_modifyState :
    (f.modifyState s g).eagerOutputInfo = f.eagerOutputInfo := rfl

theorem state_modifyState (t : ℕ) : (f.modifyState s g).state t =
      if t = s ∧ s < f.statecount then g (f.state s) else f.state t := by
  have hget : (f.modifyState s g).state t =
      ((f.states[t]?).map fun st => if s = t then g st else st).getD .fresh := by
    unfold state modifyState
    rw [getD_eq_getElem?_getD, getElem?_modify]
    rfl
  rw [hget]
  by_cases ht : t < f.statecount
  · rw [getElem?_eq_getElem ht, Option.map_some, Option.getD_some]
    by_cases hst : s = t
    · subst hst
      rw [if_pos rfl, if_pos ⟨rfl, ht⟩, state_eq_getElem ht]
    · rw [if_neg hst, if_neg fun h => hst h.1.symm, state_eq_getElem ht]
  · have hle : f.statecount ≤ t := Nat.le_of_not_lt ht
    have hts : ¬ (t = s ∧ s < f.statecount) := fun h => ht (h.1 ▸ h.2)
    rw [getElem?_eq_none hle, Option.map_none, Option.getD_none, if_neg hts, state_of_le hle]

end

theorem state_modifyState_self (h : s < f.statecount) (g : FsmState → FsmState) :
    (f.modifyState s g).state s = g (f.state s) := by
  rw [state_modifyState, if_pos ⟨rfl, h⟩]

theorem state_modifyState_ne (h : t ≠ s) (g : FsmState → FsmState) :
    (f.modifyState s g).state t = f.state t := by
  rw [state_modifyState, if_neg fun h' => h h'.1]

/-- What a rewriting keeps of the state is kept of every state. -/
theorem map_state_modifyState {α : Type*} {p : FsmState → α} {g : FsmState → FsmState}
    (h : ∀ st, p (g st) = p st) : p ((f.modifyState s g).state t) = p (f.state t) := by
  rw [state_modifyState]
  split
  · rename_i hts
    rw [h, hts.1]
  · rfl

theorem eps_modifyState {g : FsmState → FsmState} {u : ℕ}
    (h : ∀ st, (g st).epsilons = st.epsilons) : (f.modifyState s g).Eps t u ↔ f.Eps t u := by
  rw [Eps, map_state_modifyState h, Eps]

theorem isEnd_modifyState {g : FsmState → FsmState} (h : ∀ st, (g st).isEnd = st.isEnd) :
    (f.modifyState s g).IsEnd t ↔ f.IsEnd t := by
  rw [IsEnd, map_state_modifyState h, IsEnd]

/-- A state with other labelled edges. -/
theorem edge_modifyState (hs : s < f.statecount) (edges : EdgeSet) {c : Byte} {u : ℕ} :
    (f.modifyState s fun st => { st with edges := edges }).Edge t c u ↔
      if t = s then edges.HasEdge c u else f.Edge t c u := by
  rw [Edge]
  split
  · rename_i hts
    rw [hts, state_modifyState_self hs]
  · rename_i hts
    rw [state_modifyState_ne hts, Edge]

theorem modifyState_modifyState (f : Fsm) (s : ℕ) (g h : FsmState → FsmState) :
    (f.modifyState s g).modifyState s h = f.modifyState s (h ∘ g) := by
  unfold modifyState
  rw [modify_modify_eq]

/-- Two rewritings that agree on the state at hand do the same. -/
theorem modifyState_congr {g h : FsmState → FsmState} (hgh : g (f.state s) = h (f.state s)) :
    f.modifyState s g = f.modifyState s h := by
  have hlist : f.states.modify s g = f.states.modify s h := by
    apply ext_getElem
    · simp
    · intro i hi _
      have hi' : i < f.states.length := by simpa using hi
      rw [getElem_modify, getElem_modify]
      split
      · rename_i hsi
        subst hsi
        rwa [state_eq_getElem hi'] at hgh
      · rfl
  unfold modifyState
  rw [hlist]

theorem modifyState_eq_self {g : FsmState → FsmState} (hg : g (f.state s) = f.state s) :
    f.modifyState s g = f := by
  have hid : f.modifyState s g = f.modifyState s id := modifyState_congr hg
  rw [hid]
  unfold modifyState
  rw [modify_id]

/-- Rewrite the states of a list one after the other, as a loop over states does. -/
def modifyAll (f : Fsm) (l : List ℕ) (g : ℕ → FsmState → FsmState) : Fsm :=
  l.foldl (fun f s => f.modifyState s (g s)) f

section

variable (f : Fsm) (l : List ℕ) (g : ℕ → FsmState → FsmState)

@[simp] theorem statecount_modifyAll : (f.modifyAll l g).statecount = f.statecount := by
  exact foldl_eq_of_step Fsm.statecount fun _ _ _ => statecount_modifyState _ _ _

/-- A loop over states touches the fields `start`, `endidInfo` and `eagerOutputInfo` of no
FSM. -/
theorem fields_modifyAll :
    (f.modifyAll l g).start = f.start ∧ (f.modifyAll l g).endidInfo = f.endidInfo ∧
      (f.modifyAll l g).eagerOutputInfo = f.eagerOutputInfo := by
  induction l generalizing f with
  | nil => exact ⟨rfl, rfl, rfl⟩
  | cons s l ih => exact ih (f.modifyState s (g s))

@[simp] theorem start_modifyAll : (f.modifyAll l g).start = f.start := (f.fields_modifyAll l g).1

@[simp] theorem endidInfo_modifyAll :
    (f.modifyAll l g).endidInfo = f.endidInfo := (f.fields_modifyAll l g).2.1

@[simp] theorem eagerOutputInfo_modifyAll :
    (f.modifyAll l g).eagerOutputInfo = f.eagerOutputInfo := (f.fields_modifyAll l g).2.2

end

/-- A loop that visits each state at most once rewrites each by itself. -/
theorem state_modifyAll (f : Fsm) {l : List ℕ} (hl : l.Nodup) (g : ℕ → FsmState → FsmState)
    (t : ℕ) :
    (f.modifyAll l g).state t =
      if t ∈ l ∧ t < f.statecount then g t (f.state t) else f.state t := by
  unfold modifyAll
  induction l generalizing f with
  | nil => simp
  | cons s l ih =>
    obtain ⟨hs, hl'⟩ := nodup_cons.mp hl
    rw [foldl_cons, ih (f.modifyState s (g s)) hl', statecount_modifyState]
    by_cases hts : t = s
    · -- this iteration rewrites `t`; the later ones leave it alone
      subst hts
      simp only [hs, false_and, if_false, mem_cons, true_or, true_and]
      rw [state_modifyState]
      simp
    · rw [state_modifyState_ne hts]
      simp only [mem_cons, hts, false_or]

end Fsm

/-! ## §2 Building -/

def fsmNewStatealloc (statealloc : ℕ) : Fsm :=
  { statealloc := if statealloc = 0 then fsmDefaultStatealloc else statealloc }

def fsmNew : Fsm := fsmNewStatealloc fsmDefaultStatealloc

/-- `fsm_addstate`: the new state's number, and the FSM with it. -/
def fsmAddstate (f : Fsm) : ℕ × Fsm :=
  (f.statecount,
    { f with
      states := f.states ++ [.fresh]
      statealloc := if f.statecount = f.statealloc then 2 * f.statealloc else f.statealloc })

def fsmAddstateBulk (f : Fsm) (n : ℕ) : Fsm :=
  if f.statecount + n ≤ f.statealloc then
    { f with states := f.states ++ replicate n FsmState.fresh }
  else (fun g => (fsmAddstate g).2)^[n] f

/-- `fsm_setend`: the mark and its count; end IDs stay as they are. -/
def fsmSetend (f : Fsm) (s : ℕ) (isEnd : Bool) : Fsm :=
  if (f.state s).isEnd = isEnd then f
  else
    { f.modifyState s (fun st => { st with isEnd := isEnd }) with
      endcount := if isEnd then f.endcount + 1 else f.endcount - 1 }

def fsmClearstart (f : Fsm) : Fsm := { f with start := none }

def fsmSetstart (f : Fsm) (s : ℕ) : Fsm := { f with start := some s }

def fsmGetstart (f : Fsm) : Option ℕ := f.start

def fsmAddedgeEpsilon (f : Fsm) (src dst : ℕ) : Fsm :=
  f.modifyState src fun st => { st with epsilons := stateSetAdd st.epsilons dst }

def fsmAddedgeLiteral (f : Fsm) (src dst : ℕ) (c : Byte) : Fsm :=
  f.modifyState src fun st => { st with edges := edgeSetAdd st.edges c dst }

def fsmAddedgeAny (f : Fsm) (src dst : ℕ) : Fsm :=
  (finRange 256).foldl (fun f c => fsmAddedgeLiteral f src dst c) f

/-- `fsm_eager_output_set`: the table, and the flag of the state, which is left alone if the ID is
there already. -/
def fsmEagerOutputSet (f : Fsm) (s id : ℕ) : Fsm :=
  { f.modifyState s (fun st =>
      { st with hasEagerOutputs := st.hasEagerOutputs || !(f.eagerOutputInfo.get s).contains id })
      with eagerOutputInfo := eagerOutputSet f.eagerOutputInfo s id }

/-- `assert(e->used == 0 || has_eager_outputs)`, with which the functions that go through the eager
outputs of a state begin.  Removing a state leaves its outputs in the table, so the flag can be
missing. -/
def Fsm.EagerFlagged (f : Fsm) (s : ℕ) : Prop :=
  f.eagerOutputInfo.get s = [] ∨ (f.state s).hasEagerOutputs = true

instance (f : Fsm) : DecidablePred f.EagerFlagged :=
  fun _ => inferInstanceAs (Decidable (_ ∨ _))

/-- The assertions of the functions that go through all captures and all eager outputs of an FSM to
carry them over.  They fail where states were removed or renumbered without the tables. -/
def Fsm.TablesCurrent (f : Fsm) : Prop :=
  f.captureInfo.Below f.statecount ∧ ∀ e ∈ f.eagerOutputInfo.entries, f.EagerFlagged e.1

instance (f : Fsm) : Decidable f.TablesCurrent := inferInstanceAs (Decidable (_ ∧ _))

/-! ## §3 Predicates -/

def fsmIsend (f : Fsm) (s : ℕ) : Bool := (f.state s).isEnd

def fsmHasepsilons (f : Fsm) (s : ℕ) : Bool := !stateSetEmpty (f.state s).epsilons

def fsmIsdfa (f : Fsm) (s : ℕ) : Bool :=
  f.start.isSome && stateSetEmpty (f.state s).epsilons &&
    !edgeSetHasnondeterminism (f.state s).edges

/-- `fsm_iscomplete`: the labels of all groups together are all 256 symbols. -/
def fsmIscomplete (f : Fsm) (s : ℕ) : Bool :=
  (edgeSetGroups (f.state s).edges).foldl (fun bm g => bm ||| g.symbols) 0 ==
    BitVec.allOnes 256

def fsmIsany (_ : Fsm) (_ : ℕ) : Bool := true

def fsmAll (f : Fsm) (predicate : Fsm → ℕ → Bool) : Bool :=
  (range f.statecount).all (predicate f)

def fsmHas (f : Fsm) (predicate : Fsm → ℕ → Bool) : Bool :=
  (range f.statecount).any (predicate f)

def fsmCount (f : Fsm) (predicate : Fsm → ℕ → Bool) : ℕ :=
  (range f.statecount).countP (predicate f)

theorem fsmAll_eq_true_iff {p : Fsm → ℕ → Bool} :
    fsmAll f p = true ↔ ∀ s < f.statecount, p f s = true := by
  simp [fsmAll]

theorem fsmHas_eq_true_iff {p : Fsm → ℕ → Bool} :
    fsmHas f p = true ↔ ∃ s < f.statecount, p f s = true := by
  simp [fsmHas]

theorem fsmHasepsilons_eq_true_iff : fsmHasepsilons f s = true ↔ ∃ t, f.Eps s t := by
  rw [fsmHasepsilons, Bool.not_eq_true', ← Bool.not_eq_true, stateSetEmpty_eq_true_iff]
  push Not
  rfl

/-- The DFA test: a start state, no epsilon edges, and no symbol with two destinations. -/
theorem fsmIsdfa_eq_true_iff :
    fsmIsdfa f s = true ↔
      f.start.isSome = true ∧ (∀ t, ¬ f.Eps s t) ∧ (f.state s).edges.Functional := by
  rw [fsmIsdfa, Bool.and_eq_true, Bool.and_eq_true, stateSetEmpty_eq_true_iff,
    Bool.not_eq_true', edgeSetHasnondeterminism_eq_false_iff, and_assoc]
  rfl

theorem getLsbD_foldl_symbols (gs : List EdgeGroup) (bm : Symbols) (c : Byte) :
    (gs.foldl (fun bm g => bm ||| g.symbols) bm).getLsbD c = true ↔
      bm.getLsbD c = true ∨ ∃ g ∈ gs, g.has c = true := by
  apply foldl_or_iff (fun bm : Symbols => bm.getLsbD c = true)
  intro bm g
  rw [BitVec.getLsbD_or, Bool.or_eq_true, EdgeGroup.has]

/-- A state is complete when every symbol leads somewhere, whatever its epsilon edges and
however many destinations a symbol has. -/
theorem fsmIscomplete_eq_true_iff : fsmIscomplete f s = true ↔ ∀ c, ∃ t, f.Edge s c t := by
  have hbit : ∀ c : Byte,
      ((edgeSetGroups (f.state s).edges).foldl (fun bm g => bm ||| g.symbols)
        (0 : Symbols)).getLsbD c = true ↔ ∃ t, f.Edge s c t := by
    intro c
    rw [getLsbD_foldl_symbols]
    constructor
    · intro h
      rcases h with h | ⟨g, hg, hc⟩
      · simp at h
      · exact ⟨g.toState, g, (mem_edgeSetGroups.mp hg).1, rfl, hc⟩
    · rintro ⟨t, g, hg, -, hc⟩
      exact Or.inr ⟨g, mem_edgeSetGroups.mpr ⟨hg, c, hc⟩, hc⟩
  rw [fsmIscomplete, beq_iff_eq]
  constructor
  · intro h c
    rw [← hbit c, h, BitVec.getLsbD_allOnes]
    exact decide_eq_true c.isLt
  · intro h
    apply BitVec.eq_of_getLsbD_eq
    intro i hi
    rw [(hbit ⟨i, hi⟩).mpr (h ⟨i, hi⟩), BitVec.getLsbD_allOnes]
    exact (decide_eq_true hi).symm

/-! ## §4 What The Writers Do -/

@[simp] theorem statecount_fsmNewStatealloc (n : ℕ) :
    (fsmNewStatealloc n).statecount = 0 := rfl

theorem statecount_fsmAddstate (f : Fsm) :
    (fsmAddstate f).2.statecount = f.statecount + 1 := by
  simp [fsmAddstate, Fsm.statecount]

theorem state_fsmAddstate (f : Fsm) (s : ℕ) : (fsmAddstate f).2.state s = f.state s := by
  unfold Fsm.state fsmAddstate
  simp only [getD_eq_getElem?_getD]
  rcases lt_or_ge s f.states.length with h | h
  · rw [getElem?_append_left h]
  · rw [getElem?_eq_none h, getElem?_append_right h]
    rcases Nat.eq_zero_or_pos (s - f.states.length) with h0 | hpos
    · simp [h0]
    · have hout : [FsmState.fresh].length ≤ s - f.states.length := hpos
      rw [getElem?_eq_none hout]

@[simp] theorem start_fsmAddstate (f : Fsm) : (fsmAddstate f).2.start = f.start := rfl
@[simp] theorem fst_fsmAddstate (f : Fsm) : (fsmAddstate f).1 = f.statecount := rfl
@[simp] theorem endidInfo_fsmAddstate (f : Fsm) :
    (fsmAddstate f).2.endidInfo = f.endidInfo := rfl
@[simp] theorem eagerOutputInfo_fsmAddstate (f : Fsm) :
    (fsmAddstate f).2.eagerOutputInfo = f.eagerOutputInfo := rfl

/-- Adding states changes the array and its allocated size only. -/
theorem fsmAddstateBulk_eq (f : Fsm) (n : ℕ) : ∃ alloc, fsmAddstateBulk f n =
    { f with states := f.states ++ replicate n FsmState.fresh, statealloc := alloc } := by
  have hiterate : ∀ (n : ℕ) (g : Fsm), ∃ alloc, (fun g => (fsmAddstate g).2)^[n] g =
      { g with states := g.states ++ replicate n FsmState.fresh, statealloc := alloc } := by
    intro n
    induction n with
    | zero => exact fun g => ⟨g.statealloc, by simp⟩
    | succ n ih =>
      intro g
      obtain ⟨alloc, halloc⟩ := ih (fsmAddstate g).2
      rw [Function.iterate_succ_apply, halloc]
      simp [fsmAddstate, replicate_succ]
  unfold fsmAddstateBulk
  split
  · exact ⟨f.statealloc, rfl⟩
  · exact hiterate n f

@[simp] theorem states_fsmAddstateBulk (f : Fsm) (n : ℕ) :
    (fsmAddstateBulk f n).states = f.states ++ replicate n FsmState.fresh := by
  obtain ⟨alloc, h⟩ := fsmAddstateBulk_eq f n
  rw [h]

theorem state_fsmAddstateBulk (f : Fsm) (n s : ℕ) :
    (fsmAddstateBulk f n).state s = f.state s := by
  unfold Fsm.state
  rw [states_fsmAddstateBulk, getD_eq_getElem?_getD, getD_eq_getElem?_getD]
  rcases lt_or_ge s f.states.length with h | h
  · rw [getElem?_append_left h]
  · rw [getElem?_eq_none h, getElem?_append_right h, getElem?_replicate]
    split <;> rfl

@[simp] theorem statecount_fsmAddstateBulk (f : Fsm) (n : ℕ) :
    (fsmAddstateBulk f n).statecount = f.statecount + n := by
  simp [Fsm.statecount]

section

variable (f : Fsm) (s : ℕ) (b : Bool)

@[simp] theorem statecount_fsmSetend : (fsmSetend f s b).statecount = f.statecount := by
  unfold fsmSetend
  split
  · rfl
  · exact f.statecount_modifyState s _

/-- Setting the end mark changes that mark and nothing else of any state. -/
theorem state_fsmSetend (t : ℕ) : (fsmSetend f s b).state t =
      if t = s ∧ s < f.statecount then { f.state s with isEnd := b } else f.state t := by
  unfold fsmSetend
  split
  · rename_i h
    split
    · rename_i h'
      rw [h'.1, ← h]
    · rfl
  · exact f.state_modifyState s _ t

@[simp] theorem start_fsmSetend : (fsmSetend f s b).start = f.start := by
  unfold fsmSetend
  split <;> rfl

@[simp] theorem endidInfo_fsmSetend : (fsmSetend f s b).endidInfo = f.endidInfo := by
  unfold fsmSetend
  split <;> rfl

@[simp] theorem captureInfo_fsmSetend : (fsmSetend f s b).captureInfo = f.captureInfo := by
  unfold fsmSetend
  split <;> rfl

@[simp] theorem eagerOutputInfo_fsmSetend :
    (fsmSetend f s b).eagerOutputInfo = f.eagerOutputInfo := by
  unfold fsmSetend
  split <;> rfl

theorem edge_fsmSetend (p : ℕ) (c : Byte) (t : ℕ) :
    (fsmSetend f s b).Edge p c t ↔ f.Edge p c t := by
  rw [Fsm.Edge, state_fsmSetend]
  split
  · rename_i h
    rw [h.1]
    rfl
  · rfl

theorem eps_fsmSetend (p t : ℕ) : (fsmSetend f s b).Eps p t ↔ f.Eps p t := by
  rw [Fsm.Eps, state_fsmSetend]
  split
  · rename_i h
    rw [h.1]
    rfl
  · rfl

end

/-- Adding edges one by one is one rewriting of the state. -/
theorem foldl_fsmAddedgeLiteral (s t : ℕ) (cs : List Byte) (f : Fsm) :
    cs.foldl (fun f c => fsmAddedgeLiteral f s t c) f =
      f.modifyState s fun st => { st with edges := edgeSetAddAll (f.state s).edges cs t } := by
  have hfold : cs.foldl (fun f c => fsmAddedgeLiteral f s t c) f =
      f.modifyState s fun st => { st with edges := edgeSetAddAll st.edges cs t } := by
    induction cs generalizing f with
    | nil => exact (Fsm.modifyState_eq_self rfl).symm
    | cons c cs ih =>
      rw [foldl_cons, ih, fsmAddedgeLiteral, Fsm.modifyState_modifyState]
      rfl
  rw [hfold]
  exact Fsm.modifyState_congr rfl

section

variable {f : Fsm} {s p u : ℕ} (hs : s < f.statecount) (t : ℕ)
include hs

theorem edge_foldl_fsmAddedgeLiteral (cs : List Byte) {e : Byte} :
    (cs.foldl (fun f c => fsmAddedgeLiteral f s t c) f).Edge p e u ↔
      f.Edge p e u ∨ (p = s ∧ u = t ∧ e ∈ cs) := by
  rw [foldl_fsmAddedgeLiteral, Fsm.edge_modifyState hs, hasEdge_edgeSetAddAll]
  split
  · rename_i hp
    simp [hp, Fsm.Edge]
  · rename_i hp
    simp [hp]

theorem edge_fsmAddedgeLiteral (c : Byte) {e : Byte} :
    (fsmAddedgeLiteral f s t c).Edge p e u ↔ f.Edge p e u ∨ (p = s ∧ u = t ∧ e = c) := by
  rw [← List.mem_singleton (a := e)]
  exact edge_foldl_fsmAddedgeLiteral hs t [c]

end

theorem edge_fsmAddedgeEpsilon (f : Fsm) (s t p : ℕ) (c : Byte) (u : ℕ) :
    (fsmAddedgeEpsilon f s t).Edge p c u ↔ f.Edge p c u := by
  have hedges : ((fsmAddedgeEpsilon f s t).state p).edges = (f.state p).edges :=
    Fsm.map_state_modifyState fun _ => rfl
  rw [Fsm.Edge, hedges, Fsm.Edge]

theorem eps_fsmAddedgeEpsilon {f : Fsm} {s : ℕ} (hs : s < f.statecount) (t p u : ℕ) :
    (fsmAddedgeEpsilon f s t).Eps p u ↔ f.Eps p u ∨ (p = s ∧ u = t) := by
  rw [fsmAddedgeEpsilon, Fsm.Eps, Fsm.state_modifyState]
  by_cases hp : p = s
  · rw [if_pos ⟨hp, hs⟩, or_comm, hp]
    simp [Fsm.Eps]
  · simp [hp, Fsm.Eps]

/-- The state that gets an edge on every symbol. -/
theorem fsmAddedgeAny_eq (f : Fsm) (s t : ℕ) : fsmAddedgeAny f s t =
    f.modifyState s fun st =>
      { st with edges := edgeSetAddAll (f.state s).edges (finRange 256) t } :=
  foldl_fsmAddedgeLiteral s t (finRange 256) f

/-- What setting eager outputs leaves alone. -/
structure SameButEager (f q : Fsm) : Prop where
  statecount : q.statecount = f.statecount
  state : ∀ s, ∃ b, q.state s = { f.state s with hasEagerOutputs := b }
  start : q.start = f.start
  endidInfo : q.endidInfo = f.endidInfo

theorem SameButEager.trans {f q r : Fsm} (h : SameButEager f q) (h' : SameButEager q r) :
    SameButEager f r := by
  refine ⟨h'.statecount.trans h.statecount, fun s => ?_, h'.start.trans h.start,
    h'.endidInfo.trans h.endidInfo⟩
  obtain ⟨b, hb⟩ := h.state s
  obtain ⟨b', hb'⟩ := h'.state s
  exact ⟨b', by rw [hb', hb]⟩

theorem SameButEager.foldl {α : Type*} {step : Fsm → α → Fsm}
    (l : List α) (h : ∀ f x, SameButEager f (step f x)) (f : Fsm) :
    SameButEager f (l.foldl step f) :=
  foldlRecOn l step ⟨rfl, fun _ => ⟨_, rfl⟩, rfl, rfl⟩ fun _ hf x _ => hf.trans (h _ x)

theorem sameButEager_fsmEagerOutputSet (f : Fsm) (s id : ℕ) :
    SameButEager f (fsmEagerOutputSet f s id) := by
  refine ⟨Fsm.statecount_modifyState _ _ _, fun t => ?_, rfl, rfl⟩
  show ∃ b, (f.modifyState s _).state t = _
  rw [Fsm.state_modifyState]
  split
  · rename_i h
    exact ⟨_, by rw [h.1]⟩
  · exact ⟨_, rfl⟩

/-- The loop that sets eager outputs on a state. -/
theorem foldl_fsmEagerOutputSet (s : ℕ) (buf : List ℕ) (f : Fsm) :
    SameButEager f (buf.foldl (fun f id => fsmEagerOutputSet f s id) f) ∧
      ∀ t i, i ∈ (buf.foldl (fun f id => fsmEagerOutputSet f s id) f).eagerOutputInfo.get t ↔
        i ∈ f.eagerOutputInfo.get t ∨ (t = s ∧ i ∈ buf) := by
  refine ⟨.foldl buf (fun f id => sameButEager_fsmEagerOutputSet f s id) f, fun t i => ?_⟩
  rw [foldl_or_iff (fun f : Fsm => i ∈ f.eagerOutputInfo.get t) fun f id =>
    (mem_get_eagerOutputSet f.eagerOutputInfo s id t i).trans or_comm]
  simp [and_comm]

end Libfsm
