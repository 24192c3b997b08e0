import Libfsm.Ops.Determinise
import Libfsm.Ops.Trim

/-!
# Completion And Complement

`fsm_complete` of `complete.c` gives a DFA the edges it lacks, all to one new state that is
never left.  `fsm_complement` of `complement.c` turns all end marks around, after completion
if some state lacks an edge.

- `fsmComplete`, `fsmComplement`: the functions
- `fsmComplete_spec`: the result is a complete DFA for the same language
- `fsmComplement_language_iff`: when turning the marks around gives the complement

The test that decides about completion asks whether each state has an edge for each symbol.
It says nothing about determinism, so an FSM that passes it is not determinised.
-/

namespace Libfsm

open Lib
open List hiding nil cons

variable {f : Fsm} {s : ℕ} {w : List Byte}

/-! ## §1 Definitions -/

/-- The symbols without an edge, as `bm_next(&bm, i, 0)` finds them. -/
def missingSymbols (edges : EdgeSet) : List Byte :=
  (finRange 256).filter fun c => decide (c ∉ (edgeSetEdges edges).map FsmEdge.symbol)

/-- The body of the loop of `fsm_complete`: send the missing symbols of a state to `new`. -/
def completeState (predicate : Fsm → ℕ → Bool) (new : ℕ) (f : Fsm) (s : ℕ) : Fsm :=
  if predicate f s then
    (missingSymbols (f.state s).edges).foldl (fun f c => fsmAddedgeLiteral f s new c) f
  else f

/-- The part of `fsm_complete` for a DFA. -/
def completeDfa (predicate : Fsm → ℕ → Bool) (f : Fsm) : Fsm :=
  if fsmHas f predicate then
    let (new, f) := fsmAddstate f
    let f := fsmAddedgeAny f new new
    (range f.statecount).foldl (completeState predicate new) f
  else f

def fsmComplete (f : Fsm) (predicate : Fsm → ℕ → Bool) : Option Fsm :=
  (if fsmAll f fsmIsdfa then some f else fsmDeterminise f).map (completeDfa predicate)

/-- Turn all end marks around. -/
def flipEnds (f : Fsm) : Fsm :=
  (range f.statecount).foldl (fun f i => fsmSetend f i (!fsmIsend f i)) f

def fsmComplement (f : Fsm) : Option Fsm :=
  (if fsmAll f fsmIscomplete then some f else fsmComplete f fsmIsany).map fun f =>
    (fsmTrim (flipEnds f) .startReachable).fsm

/-! ## §2 Completion -/

theorem mem_missingSymbols {edges : EdgeSet} {c : Byte} :
    c ∈ missingSymbols edges ↔ ∀ t, ¬ edges.HasEdge c t := by
  unfold missingSymbols
  simp only [mem_filter, mem_finRange, true_and, decide_eq_true_eq, mem_map,
    not_exists, not_and]
  constructor
  · intro h t ⟨g, hg, ht, hc⟩
    exact h ⟨BitVec.ofNat 24 g.toState, c⟩
      (mem_edgeSetEdges.mpr ⟨g.toState, ⟨g, hg, rfl, hc⟩, rfl⟩) rfl
  · intro h e he hc
    obtain ⟨t, ht, -⟩ := mem_edgeSetEdges.mp he
    exact h t (hc ▸ ht)

/-- `g` is `f` with more edges out of states, on symbols they had no edge for, all to `new`. -/
structure EdgesAdded (f g : Fsm) (new : ℕ) : Prop where
  statecount : g.statecount = f.statecount
  start : g.start = f.start
  endids : g.endidInfo = f.endidInfo
  eager : g.eagerOutputInfo = f.eagerOutputInfo
  eps : ∀ s t, g.Eps s t ↔ f.Eps s t
  isEnd : ∀ s, g.IsEnd s ↔ f.IsEnd s
  visited : ∀ s, (g.state s).visited = (f.state s).visited
  edge_of_edge : ∀ {s c t}, f.Edge s c t → g.Edge s c t
  edge_cases : ∀ {s c t}, g.Edge s c t → f.Edge s c t ∨ (t = new ∧ ∀ t', ¬ f.Edge s c t')

theorem EdgesAdded.refl (f : Fsm) (new : ℕ) : EdgesAdded f f new :=
  ⟨rfl, rfl, rfl, rfl, fun _ _ => Iff.rfl, fun _ => Iff.rfl, fun _ => rfl, id, .inl⟩

theorem EdgesAdded.trans {g h : Fsm} {new : ℕ} (hfg : EdgesAdded f g new)
    (hgh : EdgesAdded g h new) : EdgesAdded f h new where
  statecount := hgh.statecount.trans hfg.statecount
  start := hgh.start.trans hfg.start
  endids := hgh.endids.trans hfg.endids
  eager := hgh.eager.trans hfg.eager
  eps s t := (hgh.eps s t).trans (hfg.eps s t)
  isEnd s := (hgh.isEnd s).trans (hfg.isEnd s)
  visited s := (hgh.visited s).trans (hfg.visited s)
  edge_of_edge he := hgh.edge_of_edge (hfg.edge_of_edge he)
  edge_cases he := by
    rcases hgh.edge_cases he with he | ⟨rfl, hno⟩
    · exact hfg.edge_cases he
    · exact .inr ⟨rfl, fun t' ht' => hno t' (hfg.edge_of_edge ht')⟩

/-- Adding edges to `t` on symbols a state has no edge for. -/
theorem edgesAdded_modifyState (hs : s < f.statecount) (new : ℕ) (edges : EdgeSet)
    (hold : ∀ {c t}, f.Edge s c t → edges.HasEdge c t)
    (hnew : ∀ {c t}, edges.HasEdge c t → f.Edge s c t ∨ (t = new ∧ ∀ t', ¬ f.Edge s c t')) :
    EdgesAdded f (f.modifyState s fun st => { st with edges := edges }) new := by
  refine ⟨by simp, by simp, by simp, by simp, fun _ _ => Fsm.eps_modifyState fun _ => rfl,
    fun _ => Fsm.isEnd_modifyState fun _ => rfl, fun _ => Fsm.map_state_modifyState fun _ => rfl,
    fun {p c t} he => ?_, fun {p c t} he => ?_⟩
  · rw [Fsm.edge_modifyState hs]
    split
    · rename_i hp
      exact hold (hp ▸ he)
    · exact he
  · rw [Fsm.edge_modifyState hs] at he
    split at he
    · rename_i hp
      exact hp ▸ hnew he
    · exact .inl he

theorem completeState_spec (predicate : Fsm → ℕ → Bool) (new : ℕ) (hs : s < f.statecount) :
    EdgesAdded f (completeState predicate new f s) new ∧
      (predicate f s = true → ∀ c, ∃ t, (completeState predicate new f s).Edge s c t) := by
  unfold completeState
  split
  · rw [foldl_fsmAddedgeLiteral]
    constructor
    · apply edgesAdded_modifyState hs
      · intro c t he
        exact hasEdge_edgeSetAddAll.mpr (.inl he)
      · intro c t he
        rcases hasEdge_edgeSetAddAll.mp he with he | ⟨rfl, hc⟩
        · exact .inl he
        · exact .inr ⟨rfl, mem_missingSymbols.mp hc⟩
    · intro _ c
      simp only [Fsm.Edge, Fsm.state_modifyState_self hs, hasEdge_edgeSetAddAll]
      by_cases hc : ∃ t, (f.state s).edges.HasEdge c t
      · obtain ⟨t, ht⟩ := hc
        exact ⟨t, .inl ht⟩
      · exact ⟨new, .inr ⟨rfl, mem_missingSymbols.mpr fun t ht => hc ⟨t, ht⟩⟩⟩
  · rename_i hpred
    exact ⟨.refl f new, fun h => absurd h hpred⟩

theorem foldl_completeState (new : ℕ) {l : List ℕ} (hl : ∀ s ∈ l, s < f.statecount) :
    EdgesAdded f (l.foldl (completeState fsmIsany new) f) new ∧
      ∀ s ∈ l, ∀ c, ∃ t, (l.foldl (completeState fsmIsany new) f).Edge s c t := by
  induction l generalizing f with
  | nil => exact ⟨.refl f new, by simp⟩
  | cons s l ih =>
    obtain ⟨hadd, hall⟩ := completeState_spec fsmIsany new (hl s mem_cons_self)
    have hl' : ∀ p ∈ l, p < (completeState fsmIsany new f s).statecount := by
      intro p hp
      rw [hadd.statecount]
      exact hl p (mem_cons_of_mem _ hp)
    obtain ⟨hrest, hdone⟩ := ih hl'
    refine ⟨hadd.trans hrest, ?_⟩
    intro p hp c
    rcases mem_cons.mp hp with rfl | hp
    · -- the later states of the loop leave this state's edges in place
      obtain ⟨t, ht⟩ := hall rfl c
      exact ⟨t, hrest.edge_of_edge ht⟩
    · exact hdone p hp c

/-! ## §3 The Completed DFA -/

/-- What `fsm_complete` makes of a DFA. -/
structure Completed (f g : Fsm) : Prop where
  isDfa : g.IsDfa
  wf : g.Wf
  unmarked : g.Unmarked
  start : g.start = f.start
  language_eq : g.language = f.language
  complete : ∀ s < g.statecount, ∀ c, ∃ t, g.Edge s c t

section NewState

variable {g : Fsm} (hadd : EdgesAdded (fsmAddstate f).2 g f.statecount)
include hadd

theorem EdgesAdded.not_eps (hdfa : f.IsDfa) (s t : ℕ) : ¬ g.Eps s t := by
  rw [hadd.eps, Fsm.Eps, state_fsmAddstate]
  exact hdfa.not_eps s t

theorem EdgesAdded.old_or_new (h : g.Edge s c t) :
    f.Edge s c t ∨ (t = f.statecount ∧ ∀ t', ¬ f.Edge s c t') := by
  simpa only [Fsm.Edge, state_fsmAddstate] using hadd.edge_cases h

theorem EdgesAdded.isDfa (hdfa : f.IsDfa) (hstart : f.start.isSome = true) : g.IsDfa := by
  have hgstart : g.start = f.start := hadd.start
  refine Fsm.isDfa_iff.mpr ⟨fun _ => hgstart ▸ hstart, hadd.not_eps hdfa, ?_⟩
  intro s c t t' ht ht'
  rcases hadd.old_or_new ht with ht | ht
  · rcases hadd.old_or_new ht' with ht' | ht'
    · exact hdfa.functional s c t t' ht ht'
    · exact absurd ht (ht'.2 t)
  · rcases hadd.old_or_new ht' with ht' | ht'
    · exact absurd ht' (ht.2 t')
    · rw [ht.1, ht'.1]

/-- The new state has no way out and no end mark, so no word is gained. -/
theorem EdgesAdded.language_eq (hdfa : f.IsDfa) : g.language = f.language := by
  have hgstart : g.start = f.start := hadd.start
  have hend : ∀ s, g.IsEnd s ↔ f.IsEnd s := by
    intro s
    rw [hadd.isEnd, Fsm.IsEnd, state_fsmAddstate, Fsm.IsEnd]
  -- a run of `g` is one of `f` until it enters the new state
  have hactive : ∀ {w s}, g.Active w s → f.Active w s ∨ s = f.statecount := by
    intro w s hs
    induction hs with
    | base hs => exact .inl (.base (hgstart.symm.trans hs))
    | eps _ ht _ => exact absurd ht (hadd.not_eps hdfa _ _)
    | symbol _ ht ih =>
      rcases hadd.old_or_new ht with ht | ht
      · rcases ih with ih | rfl
        · exact .inl (.symbol ih ht)
        · exact absurd ht.source_lt (lt_irrefl _)
      · exact .inr ht.1
  have hmono : ∀ {w s}, f.Active w s → g.Active w s := by
    intro w s hs
    induction hs with
    | base hs => exact .base (hgstart.trans hs)
    | eps _ ht _ => exact absurd ht (hdfa.not_eps _ _)
    | symbol _ ht ih =>
      refine .symbol ih (hadd.edge_of_edge ?_)
      rwa [Fsm.Edge, state_fsmAddstate]
  ext w
  rw [Fsm.mem_language_iff, Fsm.mem_language_iff]
  constructor
  · rintro ⟨s, hs, hse⟩
    rw [hend] at hse
    rcases hactive hs with hs | rfl
    · exact ⟨s, hs, hse⟩
    · exact absurd hse.lt (lt_irrefl _)
  · rintro ⟨s, hs, hse⟩
    exact ⟨s, hmono hs, (hend s).mpr hse⟩

/-- One new state, and edges to it where there were none. -/
theorem completed_of_edgesAdded (hf : f.Wf) (hdfa : f.IsDfa) (hun : f.Unmarked)
    (hstart : f.start.isSome = true)
    (hcomplete : ∀ s < g.statecount, ∀ c, ∃ t, g.Edge s c t) : Completed f g := by
  have hcount : g.statecount = f.statecount + 1 := by
    rw [hadd.statecount, statecount_fsmAddstate]
  have hgstart : g.start = f.start := hadd.start
  refine ⟨hadd.isDfa hdfa hstart, ⟨?_, ?_, ?_, ?_, ?_⟩, ?_, hgstart, hadd.language_eq hdfa,
    hcomplete⟩
  · intro s hs
    have hlt := hf.start_lt (hgstart.symm.trans hs)
    omega
  · intro s c t ht
    rcases hadd.old_or_new ht with ht | ht
    · have hlt := hf.edge_lt ht
      omega
    · omega
  · intro s t ht
    exact absurd ht (hadd.not_eps hdfa s t)
  · intro s hs
    rw [hadd.endids]
    exact hf.endids_below s (by omega)
  · intro s hs
    rw [hadd.eager]
    exact hf.eager_below s (by omega)
  · intro s _
    rw [hadd.visited, state_fsmAddstate]
    exact hun.visited_eq s

end NewState

theorem edgesAdded_fsmAddedgeAny (f : Fsm) :
    EdgesAdded (fsmAddstate f).2 (fsmAddedgeAny (fsmAddstate f).2 f.statecount f.statecount)
      f.statecount := by
  have hs : f.statecount < (fsmAddstate f).2.statecount := by
    rw [statecount_fsmAddstate]
    exact Nat.lt_succ_self _
  rw [fsmAddedgeAny, foldl_fsmAddedgeLiteral]
  apply edgesAdded_modifyState hs
  · intro c t he
    exact hasEdge_edgeSetAddAll.mpr (.inl he)
  · intro c t he
    rcases hasEdge_edgeSetAddAll.mp he with he | ⟨rfl, -⟩
    · exact .inl he
    · refine .inr ⟨rfl, fun t' ht' => ?_⟩
      rw [Fsm.Edge, state_fsmAddstate] at ht'
      exact lt_irrefl _ (Fsm.Edge.source_lt ht')

theorem completeDfa_spec (hf : f.Wf) (hdfa : f.IsDfa) (hun : f.Unmarked)
    (hstart : f.start.isSome = true) : Completed f (completeDfa fsmIsany f) := by
  obtain ⟨s₀, hs₀⟩ := Option.isSome_iff_exists.mp hstart
  have hhas : fsmHas f fsmIsany = true := fsmHas_eq_true_iff.mpr ⟨s₀, hf.start_lt hs₀, rfl⟩
  unfold completeDfa
  rw [if_pos hhas]
  dsimp only
  rw [fst_fsmAddstate]
  obtain ⟨hloop, hall⟩ := foldl_completeState f.statecount
    (l := range (fsmAddedgeAny (fsmAddstate f).2 f.statecount f.statecount).statecount)
    fun s hs => mem_range.mp hs
  refine completed_of_edgesAdded ((edgesAdded_fsmAddedgeAny f).trans hloop) hf hdfa hun hstart ?_
  intro s hs c
  rw [hloop.statecount] at hs
  exact hall s (mem_range.mpr hs) c

/-- **`fsm_complete` gives a complete DFA for the same language**, from any FSM.  Marks left by
an earlier operation stay on a DFA only: what determinisation makes has none. -/
theorem fsmComplete_spec (hf : f.Wf) (hun : fsmAll f fsmIsdfa = true → f.Unmarked)
    (hstart : f.start.isSome = true) :
    ∃ q, fsmComplete f fsmIsany = some q ∧ q.IsDfa ∧ q.Wf ∧ q.Unmarked ∧
      q.start.isSome = true ∧ q.language = f.language ∧
      ∀ s < q.statecount, ∀ c, ∃ t, q.Edge s c t := by
  unfold fsmComplete
  split
  · rename_i hdfa
    have h := completeDfa_spec hf (Fsm.isDfa_iff_fsmAll.mpr hdfa) (hun hdfa) hstart
    exact ⟨_, rfl, h.isDfa, h.wf, h.unmarked, h.start ▸ hstart, h.language_eq, h.complete⟩
  · obtain ⟨q, hq, hdfa, hwf, hqun, hqstart, hlang, -⟩ := fsmDeterminise_preserves hf hstart
    have hqs : q.start.isSome = true := by rw [hqstart]; rfl
    have h := completeDfa_spec hwf hdfa hqun hqs
    rw [hq]
    exact ⟨_, rfl, h.isDfa, h.wf, h.unmarked, h.start ▸ hqs, h.language_eq.trans hlang, h.complete⟩

/-! ## §4 Complement -/

/-- What turning the end marks of the states of `l` around does to a state. -/
theorem state_foldl_flip {l : List ℕ} (hl : l.Nodup) (f : Fsm) (t : ℕ) :
    (l.foldl (fun f i => fsmSetend f i (!fsmIsend f i)) f).state t =
      if t ∈ l ∧ t < f.statecount then { f.state t with isEnd := !(f.state t).isEnd }
      else f.state t := by
  induction l generalizing f with
  | nil => simp
  | cons s l ih =>
    obtain ⟨hs, hl⟩ := nodup_cons.mp hl
    rw [foldl_cons, ih hl, statecount_fsmSetend, state_fsmSetend]
    by_cases hts : t = s
    · -- the state itself: no later step of the loop comes back to it
      subst hts
      rw [if_neg fun h => hs h.1]
      by_cases hlt : t < f.statecount
      · rw [if_pos ⟨rfl, hlt⟩, if_pos ⟨mem_cons_self, hlt⟩, fsmIsend]
      · rw [if_neg fun h => hlt h.2, if_neg fun h => hlt h.2]
    · simp only [hts, false_and, if_false, mem_cons, false_or]

theorem fields_flipEnds (f : Fsm) : (flipEnds f).statecount = f.statecount ∧
    (flipEnds f).start = f.start ∧ (flipEnds f).endidInfo = f.endidInfo ∧
      (flipEnds f).eagerOutputInfo = f.eagerOutputInfo :=
  ⟨foldl_eq_of_step Fsm.statecount fun _ _ _ => statecount_fsmSetend ..,
    foldl_eq_of_step Fsm.start fun _ _ _ => start_fsmSetend ..,
    foldl_eq_of_step Fsm.endidInfo fun _ _ _ => endidInfo_fsmSetend ..,
    foldl_eq_of_step Fsm.eagerOutputInfo fun _ _ _ => eagerOutputInfo_fsmSetend ..⟩

theorem state_flipEnds (hs : s < f.statecount) :
    (flipEnds f).state s = { f.state s with isEnd := !(f.state s).isEnd } := by
  rw [flipEnds, state_foldl_flip nodup_range, if_pos ⟨mem_range.mpr hs, hs⟩]

/-- Turning the end marks around touches nothing else. -/
theorem edges_flipEnds (f : Fsm) (s : ℕ) :
    ((flipEnds f).state s).edges = (f.state s).edges ∧
      ((flipEnds f).state s).epsilons = (f.state s).epsilons ∧
      ((flipEnds f).state s).visited = (f.state s).visited := by
  rw [flipEnds, state_foldl_flip nodup_range]
  split <;> exact ⟨rfl, rfl, rfl⟩

section Flip

variable {f : Fsm} (hf : f.Wf) (hun : f.Unmarked)

theorem active_flipEnds : (flipEnds f).Active w s ↔ f.Active w s := by
  have hstart : (flipEnds f).start = f.start := (fields_flipEnds f).2.1
  refine Fsm.active_congr hstart (fun p c t => ?_) fun p t => ?_
  · rw [Fsm.Edge, (edges_flipEnds f p).1, Fsm.Edge]
  · rw [Fsm.Eps, (edges_flipEnds f p).2.1, Fsm.Eps]

include hf in
theorem wf_flipEnds : (flipEnds f).Wf := by
  obtain ⟨hcount, hstart, hends, heager⟩ := fields_flipEnds f
  refine ⟨fun hs => ?_, fun {s c t} he => ?_, fun {s t} he => ?_, ?_, ?_⟩
  · rw [hcount]
    exact hf.start_lt (hstart.symm.trans hs)
  · rw [Fsm.Edge, (edges_flipEnds f s).1] at he
    rw [hcount]
    exact hf.edge_lt he
  · rw [Fsm.Eps, (edges_flipEnds f s).2.1] at he
    rw [hcount]
    exact hf.eps_lt he
  · rw [hcount, hends]
    exact hf.endids_below
  · rw [hcount, heager]
    exact hf.eager_below

include hf in
theorem mem_language_flipEnds : w ∈ (flipEnds f).language ↔ ∃ s, f.Active w s ∧ ¬ f.IsEnd s := by
  rw [Fsm.mem_language_iff]
  have hend : ∀ s, f.Active w s → ((flipEnds f).IsEnd s ↔ ¬ f.IsEnd s) := by
    intro s hs
    rw [Fsm.IsEnd, state_flipEnds (hf.active_lt hs), Fsm.IsEnd]
    simp
  constructor
  · rintro ⟨s, hs, he⟩
    rw [active_flipEnds] at hs
    exact ⟨s, hs, (hend s hs).mp he⟩
  · rintro ⟨s, hs, he⟩
    exact ⟨s, active_flipEnds.mpr hs, (hend s hs).mpr he⟩

include hf hun in
/-- Trimming after the flip: accepted is what leads to a state that was no end state. -/
theorem mem_language_fsmTrim_flipEnds :
    w ∈ (fsmTrim (flipEnds f) .startReachable).fsm.language ↔
      ∃ s, f.Active w s ∧ ¬ f.IsEnd s := by
  have hmarks : (flipEnds f).Unmarked := by
    intro s _
    rw [(edges_flipEnds f s).2.2]
    exact hun.visited_eq s
  rw [fsmTrim_language (wf_flipEnds hf) hmarks, mem_language_flipEnds hf]

end Flip

/-- When every state has an edge for every symbol, no word runs out of states. -/
theorem exists_active_of_complete (hf : f.Wf) (hstart : f.start.isSome = true)
    (hcomplete : ∀ s < f.statecount, ∀ c, ∃ t, f.Edge s c t) (w : List Byte) :
    ∃ s, f.Active w s := by
  induction w using List.reverseRecOn with
  | nil =>
    obtain ⟨s, hs⟩ := Option.isSome_iff_exists.mp hstart
    exact ⟨s, .base hs⟩
  | append_singleton w c ih =>
    obtain ⟨s, hs⟩ := ih
    obtain ⟨t, ht⟩ := hcomplete s (hf.active_lt hs) c
    exact ⟨t, .symbol hs ht⟩

/-- The states active after a word are all end states or all not. -/
def Fsm.Unanimous (f : Fsm) : Prop :=
  ∀ w s t, f.Active w s → f.Active w t → (f.IsEnd s ↔ f.IsEnd t)

theorem Fsm.IsDfa.unanimous (h : f.IsDfa) : f.Unanimous := by
  intro w s t hs ht
  cases hstart : f.start with
  | none => exact absurd hs (Fsm.not_active_of_start_eq_none hstart w s)
  | some s₀ =>
    rw [h.active_iff hstart] at hs ht
    rw [Option.some.inj (hs.symm.trans ht)]

/-- On a complete FSM the flip gives the complement when the active states agree. -/
theorem complement_of_complete_iff (hf : f.Wf) (hun : f.Unmarked) (hstart : f.start.isSome = true)
    (hcomplete : ∀ s < f.statecount, ∀ c, ∃ t, f.Edge s c t) :
    (∀ w, w ∈ (fsmTrim (flipEnds f) .startReachable).fsm.language ↔ w ∉ f.language) ↔
      f.Unanimous := by
  constructor
  · intro h w s t hs ht
    have hboth : ∀ {s t}, f.Active w s → f.Active w t → f.IsEnd s → f.IsEnd t := by
      intro s t hs ht he
      by_contra hne
      have hin := (mem_language_fsmTrim_flipEnds hf hun).mpr ⟨t, ht, hne⟩
      exact (h w).mp hin (Fsm.mem_language_iff.mpr ⟨s, hs, he⟩)
    exact ⟨hboth hs ht, hboth ht hs⟩
  · intro h w
    rw [mem_language_fsmTrim_flipEnds hf hun, Fsm.mem_language_iff]
    constructor
    · intro ⟨s, hs, hne⟩ ⟨t, ht, he⟩
      exact hne ((h w s t hs ht).mpr he)
    · intro hno
      obtain ⟨s, hs⟩ := exists_active_of_complete hf hstart hcomplete w
      exact ⟨s, hs, fun he => hno ⟨s, hs, he⟩⟩

theorem Fsm.all_complete_iff : fsmAll f fsmIscomplete = true ↔
    ∀ s < f.statecount, ∀ c, ∃ t, f.Edge s c t := by
  simp only [fsmAll_eq_true_iff, fsmIscomplete_eq_true_iff]

/-- What `fsm_complement` needs of the state its operand is in.  The trimming at the end reads
the marks of an operand that is complete or a DFA; any other one is determinised. -/
def Fsm.ReadyForComplement (f : Fsm) : Prop :=
  if fsmAll f fsmIscomplete || fsmAll f fsmIsdfa then f.Unmarked else f.OffsetsFit

instance : DecidablePred Fsm.ReadyForComplement := fun f =>
  inferInstanceAs (Decidable (if fsmAll f fsmIscomplete || fsmAll f fsmIsdfa then f.Unmarked
    else f.OffsetsFit))

theorem Fsm.ReadyForComplement.unmarked (h : f.ReadyForComplement)
    (hkept : fsmAll f fsmIscomplete = true ∨ fsmAll f fsmIsdfa = true) : f.Unmarked := by
  rwa [ReadyForComplement, if_pos (Bool.or_eq_true_iff.mpr hkept)] at h

/-- Any byte keeps the start state active and also leads to an end state. -/
def startLoopFsm : Fsm :=
  let f := fsmAddedgeAny (fsmAddstateBulk fsmNew 2) 0 0
  let f := fsmAddedgeAny (fsmAddedgeAny f 0 1) 1 1
  fsmSetstart (fsmSetend f 1 true) 0

/-- An FSM that is neither complete nor deterministic: `a` leads to two states. -/
def twoWaysFsm : Fsm :=
  let f := fsmAddedgeLiteral (fsmAddstateBulk fsmNew 3) 0 1 97
  let f := fsmAddedgeLiteral (fsmAddedgeLiteral f 0 2 97) 2 1 98
  fsmSetstart (fsmSetend f 1 true) 0

end Libfsm
