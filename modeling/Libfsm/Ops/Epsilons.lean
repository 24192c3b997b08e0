import Libfsm.Ops.Closure

/-!
# Removing Epsilon Edges

`fsm_remove_epsilons` of `epsilons.c`.  Every state that a labelled edge leads to, and the
start state, takes over the end mark, the end IDs, the eager outputs and the labelled edges
of the states in its closure.  States are rewritten in place and in ascending order, so a
closure may hold states that have been rewritten already.

- `fsmRemoveEpsilons`: the removal
- `Absorbing`, `Absorbed`: what the loops have done so far, with their step lemmas
- `fsmRemoveEpsilons_spec`: the whole run
- `Absorbed.language_eq`, `Absorbed.eagerIdsAfter_eq`: what is preserved
- `Absorbed.endIdsAfter_eq_iff`: end IDs are preserved unless stale ones come alive
- `fsmRemoveEpsilons_exact_iff`: the removal as a whole
-/

namespace Libfsm

open Lib
open List hiding nil cons

variable {k s : ℕ} {f : Fsm} {w : List Byte}

/-! ## §1 The Removal -/

def appendEagerOutputId (buf : List ℕ) (id : ℕ) : List ℕ :=
  if id ∈ buf then buf else buf ++ [id]

/-- `carry_endids`: the IDs of the states of a set that are end states now. -/
def carryEndids (f : Fsm) (states : StateSet) (dst : ℕ) : Fsm :=
  let ids := states.toList.flatMap fun s => if fsmIsend f s then f.endidInfo.get s else []
  { f with endidInfo := ids.foldl (fun m id => endidSet m dst id) f.endidInfo }

/-- Add the edge groups of `src` to `dst`. -/
def copyEdgeGroups (f : Fsm) (src dst : ℕ) : Fsm :=
  (edgeSetGroups (f.state src).edges).foldl
    (fun f g => f.modifyState dst fun st =>
      { st with edges := edgeSetAddBulk st.edges g.symbols g.toState }) f

/-- The loop body of `fsm_remove_epsilons` for one state `es` in the closure of `s`; the
buffer collects eager outputs. -/
def absorbState (closure : StateSet) (s : ℕ) (acc : Fsm × List ℕ) (es : ℕ) :
    Fsm × List ℕ :=
  let f := acc.1
  let f := if fsmIsend f es then carryEndids (fsmSetend f s true) closure s else f
  (copyEdgeGroups f es s, (f.eagerOutputInfo.get es).foldl appendEagerOutputId acc.2)

/-- The loop body of `fsm_remove_epsilons` for one state `s`. -/
def absorbClosure (f : Fsm) (closure : StateSet) (s : ℕ) : Fsm :=
  let (f, buf) := closure.toList.foldl (absorbState closure s) (f, [])
  buf.foldl (fun f id => fsmEagerOutputSet f s id) f

/-- `mark_states_reachable_by_label`, as a test on states. -/
def reachableByLabel (f : Fsm) (start s : ℕ) : Bool :=
  s == start || (range f.statecount).any fun p =>
    (edgeSetGroups (f.state p).edges).any fun g => g.toState == s

/-- The reverse mapping of `remap_capture_actions`: the other states with `s` in their
closure. -/
def captureRmap (closures : List StateSet) (s : ℕ) : List ℕ :=
  (range closures.length).filter fun p => p ≠ s ∧ s ∈ closures.getD p .null

/-- `remap_capture_actions`: repeat each action on every state that skips to its state.
(The inner loop of the callback goes on with the outer iterator, and adds the same action
for the states that are left.) -/
def remapCaptureActions (ci : CaptureInfo) (closures : List StateSet) : CaptureInfo :=
  (ci.buckets.flatMap fun a => (captureRmap closures a.state).map fun s =>
    { a with state := s }).foldl CaptureInfo.addAction ci

/-- `fsm_remove_epsilons`; fails if there is no start state. -/
def fsmRemoveEpsilons (nfa : Fsm) : Option Fsm :=
  let closures := epsilonClosure nfa
  -- the closures have cleared all marks
  let f := nfa.setVisited fun _ => false
  match fsmGetstart f with
  | none => none
  | some start =>
    let f := (range nfa.statecount).foldl
      (fun f s =>
        if reachableByLabel nfa start s then absorbClosure f (closures.getD s .null) s else f) f
    let f := f.modifyAll (range nfa.statecount) fun _ st => { st with epsilons := .null }
    some { f with captureInfo := remapCaptureActions f.captureInfo closures }

/-! ## §2 Absorbing One Closure -/

/-- What has been done to `s` after the states of `l`, out of a closure, have been absorbed.
Nothing else has changed. -/
structure Absorbing (f : Fsm) (closure : StateSet) (s : ℕ) (l : List ℕ)
    (g : Fsm) (buf : List ℕ) : Prop where
  statecount : g.statecount = f.statecount
  start : g.start = f.start
  eager : g.eagerOutputInfo = f.eagerOutputInfo
  frame : ∀ t ≠ s, g.state t = f.state t
  visited : (g.state s).visited = (f.state s).visited
  edge : ∀ c t, g.Edge s c t ↔ f.Edge s c t ∨ ∃ es ∈ l, f.Edge es c t
  isEnd : g.IsEnd s ↔ f.IsEnd s ∨ ∃ es ∈ l, f.IsEnd es
  endids_frame : ∀ t ≠ s, g.endidInfo.get t = f.endidInfo.get t
  endids : ∀ i, i ∈ g.endidInfo.get s ↔ i ∈ f.endidInfo.get s ∨
    ((∃ es ∈ l, f.IsEnd es) ∧ ∃ u ∈ closure, f.IsEnd u ∧ i ∈ f.endidInfo.get u)
  buf : ∀ i, i ∈ buf ↔ ∃ es ∈ l, i ∈ f.eagerOutputInfo.get es

theorem mem_foldl_appendEagerOutputId (ids buf : List ℕ) (i : ℕ) :
    i ∈ ids.foldl appendEagerOutputId buf ↔ i ∈ buf ∨ i ∈ ids := by
  rw [← exists_eq_right' (p := (· ∈ ids))]
  apply foldl_or_iff (i ∈ ·)
  intro buf x
  unfold appendEagerOutputId
  split
  · rename_i h
    exact ⟨.inl, fun h' => h'.elim id fun h' => h' ▸ h⟩
  · simp

/-- `g` differs from `f` in the edges of one state only, which are `edges` now. -/
structure EdgesReplaced (f g : Fsm) (s : ℕ) (edges : EdgeSet) : Prop where
  statecount : g.statecount = f.statecount
  start : g.start = f.start
  endids : g.endidInfo = f.endidInfo
  eager : g.eagerOutputInfo = f.eagerOutputInfo
  frame : ∀ t ≠ s, g.state t = f.state t
  state : g.state s = { f.state s with edges := edges }

private theorem foldl_addBulk {dst : ℕ} (gs : List EdgeGroup) (f : Fsm)
    (hdst : dst < f.statecount) :
    ∃ edges, EdgesReplaced f (gs.foldl (fun f g => f.modifyState dst fun st =>
        { st with edges := edgeSetAddBulk st.edges g.symbols g.toState }) f) dst edges ∧
      ∀ c t, edges.HasEdge c t ↔ f.Edge dst c t ∨ ∃ g ∈ gs, g.toState = t ∧ g.has c = true := by
  induction gs generalizing f with
  | nil =>
    exact ⟨(f.state dst).edges, ⟨rfl, rfl, rfl, rfl, fun _ _ => rfl, rfl⟩, by simp [Fsm.Edge]⟩
  | cons g gs ih =>
    set f' := f.modifyState dst fun st =>
      { st with edges := edgeSetAddBulk st.edges g.symbols g.toState } with hf'
    have hcount : f'.statecount = f.statecount := Fsm.statecount_modifyState _ _ _
    have hstate : f'.state dst =
        { f.state dst with edges := edgeSetAddBulk (f.state dst).edges g.symbols g.toState } :=
      Fsm.state_modifyState_self hdst _
    obtain ⟨edges, hrep, hedges⟩ := ih f' (hcount ▸ hdst)
    refine ⟨edges, ⟨?_, hrep.start, hrep.endids, hrep.eager, ?_, ?_⟩, ?_⟩
    · exact hrep.statecount.trans hcount
    · intro t ht
      rw [foldl_cons, hrep.frame t ht, Fsm.state_modifyState_ne ht]
    · rw [foldl_cons, hrep.state, hstate]
    · intro c t
      rw [hedges, Fsm.Edge, hstate, hasEdge_edgeSetAddBulk, exists_mem_cons_iff, or_assoc,
        @eq_comm ℕ t]
      rfl

/-- **Copying edge groups** adds the edges of the source. -/
theorem copyEdgeGroups_spec (f : Fsm) (src : ℕ) {dst : ℕ} (hdst : dst < f.statecount) :
    ∃ edges, EdgesReplaced f (copyEdgeGroups f src dst) dst edges ∧
      ∀ c t, edges.HasEdge c t ↔ f.Edge dst c t ∨ f.Edge src c t := by
  obtain ⟨edges, hrep, hedges⟩ := foldl_addBulk (edgeSetGroups (f.state src).edges) f hdst
  refine ⟨edges, hrep, fun c t => ?_⟩
  rw [hedges]
  refine or_congr_right ⟨?_, ?_⟩
  · intro ⟨g, hg, hgt, hc⟩
    exact ⟨g, (mem_edgeSetGroups.mp hg).1, hgt, hc⟩
  · intro ⟨g, hg, hgt, hc⟩
    exact ⟨g, mem_edgeSetGroups.mpr ⟨hg, c, hc⟩, hgt, hc⟩

/-- `g` differs from `f` in the end mark of one state, which is set now, and its end IDs. -/
structure EndCarried (f g : Fsm) (closure : StateSet) (s : ℕ) : Prop where
  statecount : g.statecount = f.statecount
  start : g.start = f.start
  eager : g.eagerOutputInfo = f.eagerOutputInfo
  frame : ∀ t ≠ s, g.state t = f.state t
  state : g.state s = { f.state s with isEnd := true }
  endids_frame : ∀ t ≠ s, g.endidInfo.get t = f.endidInfo.get t
  endids : ∀ i, i ∈ g.endidInfo.get s ↔ i ∈ f.endidInfo.get s ∨
    ∃ u ∈ closure, u ≠ s ∧ f.IsEnd u ∧ i ∈ f.endidInfo.get u

/-- Setting the end mark and carrying end IDs. -/
theorem carryEndids_spec (f : Fsm) (closure : StateSet) (hs : s < f.statecount) :
    EndCarried f (carryEndids (fsmSetend f s true) closure s) closure s := by
  have hstate : ∀ t, (fsmSetend f s true).state t =
      if t = s then { f.state s with isEnd := true } else f.state t := by
    intro t
    rw [state_fsmSetend]
    simp [hs]
  refine ⟨statecount_fsmSetend f s true, start_fsmSetend f s true,
    eagerOutputInfo_fsmSetend f s true, ?_, ?_, ?_, ?_⟩
  · exact fun t ht => (hstate t).trans (if_neg ht)
  · exact (hstate s).trans (if_pos rfl)
  · intro t ht
    unfold carryEndids
    rw [get_foldl_endidSet_ne _ ht, endidInfo_fsmSetend]
  · intro i
    unfold carryEndids
    rw [mem_get_foldl_endidSet, endidInfo_fsmSetend, mem_flatMap]
    simp only [true_and]
    constructor
    · intro h
      rcases h with ⟨u, hu, hi⟩ | h
      -- the mark just set makes `s` itself one of the end states
      · unfold fsmIsend at hi
        rw [hstate] at hi
        by_cases hus : u = s
        · rw [if_pos hus, hus] at hi
          exact .inl hi
        · rw [if_neg hus] at hi
          split at hi
          · rename_i hend
            exact .inr ⟨u, hu, hus, hend, hi⟩
          · cases hi
      · exact .inl h
    · intro h
      rcases h with h | ⟨u, hu, hus, hend, hi⟩
      · exact .inr h
      · refine .inl ⟨u, hu, ?_⟩
        have hend' : fsmIsend (fsmSetend f s true) u = true := by
          unfold fsmIsend
          rw [hstate, if_neg hus]
          exact hend
        rw [if_pos hend']
        exact hi

namespace Absorbing

variable {f g : Fsm} {closure : StateSet} {s : ℕ} {l buf : List ℕ}

section

variable (h : Absorbing f closure s l g buf)
include h

private theorem isEnd_iff (es : ℕ) : g.IsEnd es ↔ f.IsEnd es ∨ (es = s ∧ ∃ e ∈ l, f.IsEnd e) := by
  by_cases hes : es = s
  · subst hes
    simp [h.isEnd]
  · rw [Fsm.IsEnd, h.frame es hes, Fsm.IsEnd]
    simp [hes]

private theorem edge_iff (es : ℕ) (c : Byte) (t : ℕ) :
    g.Edge es c t ↔ f.Edge es c t ∨ (es = s ∧ ∃ e ∈ l, f.Edge e c t) := by
  by_cases hes : es = s
  · subst hes
    simp [h.edge]
  · rw [Fsm.Edge, h.frame es hes, Fsm.Edge]
    simp [hes]

/-- Helper: the end mark and the end IDs, when the state absorbed is an end state. -/
private theorem carry (hs : s < f.statecount) {es : ℕ} (hend : g.IsEnd es) :
    (∃ e ∈ l ++ [es], f.IsEnd e) ∧
      ∀ i, i ∈ (carryEndids (fsmSetend g s true) closure s).endidInfo.get s ↔
        i ∈ f.endidInfo.get s ∨ ∃ u ∈ closure, f.IsEnd u ∧ i ∈ f.endidInfo.get u := by
  have hspec := carryEndids_spec g closure (h.statecount ▸ hs : s < g.statecount)
  have hex : ∃ e ∈ l ++ [es], f.IsEnd e := by
    rcases (h.isEnd_iff es).mp hend with he | ⟨-, e, he, hee⟩
    · exact ⟨es, mem_append_right l mem_cons_self, he⟩
    · exact ⟨e, mem_append_left [es] he, hee⟩
  refine ⟨hex, fun i => ?_⟩
  rw [hspec.endids, h.endids]
  constructor
  · intro hi
    rcases hi with (hi | ⟨-, hi⟩) | ⟨u, hu, hus, hue, hi⟩
    · exact .inl hi
    · exact .inr hi
    · rw [Fsm.IsEnd, h.frame u hus] at hue
      rw [h.endids_frame u hus] at hi
      exact .inr ⟨u, hu, hue, hi⟩
  · intro hi
    rcases hi with hi | ⟨u, hu, hue, hi⟩
    · exact .inl (.inl hi)
    · by_cases hus : u = s
      · exact .inl (.inl (hus ▸ hi))
      · refine .inr ⟨u, hu, hus, ?_, ?_⟩
        · rw [Fsm.IsEnd, h.frame u hus]
          exact hue
        · rw [h.endids_frame u hus]
          exact hi

/-- Helper: the FSM after the end mark and the end IDs of one more state, before the
edges. -/
private theorem absorbEnd (hs : s < f.statecount) (es : ℕ) :
    let g' := if fsmIsend g es then carryEndids (fsmSetend g s true) closure s else g
    g'.statecount = f.statecount ∧ g'.start = f.start ∧
      g'.eagerOutputInfo = f.eagerOutputInfo ∧ (∀ t ≠ s, g'.state t = f.state t) ∧
      (∃ b, g'.state s = { g.state s with isEnd := b }) ∧
      (g'.IsEnd s ↔ f.IsEnd s ∨ ∃ e ∈ l ++ [es], f.IsEnd e) ∧
      (∀ t ≠ s, g'.endidInfo.get t = f.endidInfo.get t) ∧
      ∀ i, i ∈ g'.endidInfo.get s ↔ i ∈ f.endidInfo.get s ∨
        ((∃ e ∈ l ++ [es], f.IsEnd e) ∧ ∃ u ∈ closure, f.IsEnd u ∧ i ∈ f.endidInfo.get u) := by
  split
  · rename_i hend
    have hspec := carryEndids_spec g closure (h.statecount ▸ hs : s < g.statecount)
    obtain ⟨hex, hids⟩ := h.carry hs hend
    refine ⟨hspec.statecount.trans h.statecount, hspec.start.trans h.start,
      hspec.eager.trans h.eager, ?_, ⟨true, hspec.state⟩, ?_, ?_, ?_⟩
    · exact fun t ht => (hspec.frame t ht).trans (h.frame t ht)
    · rw [Fsm.IsEnd, hspec.state]
      exact iff_of_true rfl (.inr hex)
    · exact fun t ht => (hspec.endids_frame t ht).trans (h.endids_frame t ht)
    · intro i
      rw [hids, and_iff_right hex]
  · rename_i hend
    -- the state absorbed has no end mark of its own
    have hno : ¬ f.IsEnd es := fun he => hend ((h.isEnd_iff es).mpr (.inl he))
    have hiff : (∃ e ∈ l ++ [es], f.IsEnd e) ↔ ∃ e ∈ l, f.IsEnd e := by
      simp [hno]
    refine ⟨h.statecount, h.start, h.eager, h.frame, ⟨_, rfl⟩, ?_, h.endids_frame, ?_⟩
    · rw [h.isEnd, hiff]
    · intro i
      rw [h.endids, hiff]

/-- **Step lemma**: absorbing one more state of the closure. -/
theorem step (hs : s < f.statecount) (es : ℕ) :
    Absorbing f closure s (l ++ [es]) (absorbState closure s (g, buf) es).1
      (absorbState closure s (g, buf) es).2 := by
  obtain ⟨hcount, hstart, heager, hframe, ⟨b, hstate⟩, hend, hids_frame, hids⟩ :=
    h.absorbEnd hs es
  set g' := if fsmIsend g es then carryEndids (fsmSetend g s true) closure s else g
  obtain ⟨edges, hrep, hedges⟩ := copyEdgeGroups_spec g' es (hcount ▸ hs)
  -- setting the end mark changes no edges
  have hedge : ∀ e c t, g'.Edge e c t ↔ g.Edge e c t := by
    intro e c t
    by_cases hes : e = s
    · rw [hes, Fsm.Edge, hstate, Fsm.Edge]
    · rw [Fsm.Edge, hframe e hes, ← h.frame e hes, Fsm.Edge]
  refine ⟨hrep.statecount.trans hcount, hrep.start.trans hstart, hrep.eager.trans heager,
    ?_, ?_, ?_, ?_, ?_, ?_, ?_⟩
  · exact fun t ht => (hrep.frame t ht).trans (hframe t ht)
  · show ((copyEdgeGroups g' es s).state s).visited = _
    rw [hrep.state, hstate, ← h.visited]
  · intro c t
    show ((copyEdgeGroups g' es s).state s).edges.HasEdge c t ↔ _
    rw [hrep.state, hedges, hedge, hedge, h.edge, h.edge_iff]
    have happend : (∃ e ∈ l ++ [es], f.Edge e c t) ↔ (∃ e ∈ l, f.Edge e c t) ∨ f.Edge es c t := by
      simp [or_and_right, exists_or]
    rw [happend, or_assoc]
    refine or_congr_right ⟨?_, ?_⟩
    · intro hor
      rcases hor with hl | hes | ⟨-, hl⟩
      · exact .inl hl
      · exact .inr hes
      · exact .inl hl
    · intro hor
      exact hor.imp_right .inl
  · show ((copyEdgeGroups g' es s).state s).isEnd = true ↔ _
    rw [hrep.state, ← hend]
    rfl
  · intro t ht
    show (copyEdgeGroups g' es s).endidInfo.get t = _
    rw [hrep.endids, hids_frame t ht]
  · intro i
    show i ∈ (copyEdgeGroups g' es s).endidInfo.get s ↔ _
    rw [hrep.endids, hids]
  · intro i
    show i ∈ (g'.eagerOutputInfo.get es).foldl appendEagerOutputId buf ↔ _
    rw [mem_foldl_appendEagerOutputId, h.buf, heager]
    simp [or_and_right, exists_or]

end

end Absorbing

/-- The whole closure absorbed, with the eager outputs. -/
structure ClosureAbsorbed (f : Fsm) (closure : StateSet) (s : ℕ) (g : Fsm) : Prop where
  statecount : g.statecount = f.statecount
  start : g.start = f.start
  visited : ∀ t, (g.state t).visited = (f.state t).visited
  edge : ∀ t c u, g.Edge t c u ↔ f.Edge t c u ∨ (t = s ∧ ∃ e ∈ closure, f.Edge e c u)
  isEnd : ∀ t, g.IsEnd t ↔ f.IsEnd t ∨ (t = s ∧ ∃ e ∈ closure, f.IsEnd e)
  endids : ∀ t i, i ∈ g.endidInfo.get t ↔ i ∈ f.endidInfo.get t ∨
    (t = s ∧ ∃ u ∈ closure, f.IsEnd u ∧ i ∈ f.endidInfo.get u)
  eager : ∀ t i, i ∈ g.eagerOutputInfo.get t ↔ i ∈ f.eagerOutputInfo.get t ∨
    (t = s ∧ ∃ e ∈ closure, i ∈ f.eagerOutputInfo.get e)

private theorem foldl_absorbState (closure : StateSet) (hs : s < f.statecount) (l done : List ℕ)
    (acc : Fsm × List ℕ) (h : Absorbing f closure s done acc.1 acc.2) :
    Absorbing f closure s (done ++ l) (l.foldl (absorbState closure s) acc).1
      (l.foldl (absorbState closure s) acc).2 := by
  induction l generalizing done acc with
  | nil =>
    rw [append_nil]
    exact h
  | cons es l ih =>
    rw [foldl_cons, append_cons]
    exact ih (done ++ [es]) _ (h.step hs es)

/-- **Run lemma** for one state: its closure is absorbed. -/
theorem absorbClosure_spec (closure : StateSet) (hs : s < f.statecount) :
    ClosureAbsorbed f closure s (absorbClosure f closure s) := by
  have hinit : Absorbing f closure s [] f [] :=
    ⟨rfl, rfl, rfl, fun _ _ => rfl, rfl, by simp, by simp, fun _ _ => rfl, by simp, by simp⟩
  have h := foldl_absorbState closure hs closure.toList [] (f, []) hinit
  set r := closure.toList.foldl (absorbState closure s) (f, []) with hr
  obtain ⟨⟨h₁, h₄, h₂, h₃⟩, h₅⟩ := foldl_fsmEagerOutputSet s r.2 r.1
  -- eager outputs are buffered, and set after the loop
  have hg : absorbClosure f closure s = r.2.foldl (fun f id => fsmEagerOutputSet f s id) r.1 := rfl
  rw [hg]
  refine ⟨h₁.trans h.statecount, h₂.trans h.start, ?_, ?_, ?_, ?_, ?_⟩
  · intro t
    obtain ⟨b, hb⟩ := h₄ t
    rw [hb]
    by_cases ht : t = s
    · rw [ht]
      exact h.visited
    · rw [h.frame t ht]
  · intro t c u
    obtain ⟨b, hb⟩ := h₄ t
    rw [Fsm.Edge, hb]
    exact h.edge_iff t c u
  · intro t
    obtain ⟨b, hb⟩ := h₄ t
    rw [Fsm.IsEnd, hb]
    exact h.isEnd_iff t
  · intro t i
    rw [h₃]
    by_cases ht : t = s
    · rw [ht, h.endids]
      refine or_congr_right ⟨fun hi => ⟨rfl, hi.2⟩, ?_⟩
      rintro ⟨-, u, hu, hue, hi⟩
      exact ⟨⟨u, hu, hue⟩, u, hu, hue, hi⟩
    · rw [h.endids_frame t ht]
      simp [ht]
  · intro t i
    rw [h₅, h.eager, h.buf]
    rfl

/-! ## §3 The Whole Removal -/

/-- The states that are rewritten: the start state and the targets of labelled edges. -/
def Fsm.Entered (f : Fsm) (s : ℕ) : Prop := f.start = some s ∨ ∃ p c, f.Edge p c s

theorem reachableByLabel_eq_true_iff {start : ℕ} (hstart : f.start = some start) :
    reachableByLabel f start s = true ↔ f.Entered s := by
  unfold reachableByLabel Fsm.Entered
  rw [Bool.or_eq_true, beq_iff_eq, hstart, Option.some.injEq, @eq_comm ℕ start, any_eq_true]
  refine or_congr_right ⟨?_, ?_⟩
  · intro ⟨p, _, hp⟩
    obtain ⟨g, hg, hgs⟩ := any_eq_true.mp hp
    obtain ⟨c, hc⟩ := exists_mem_edgeSetGroups_iff.mp ⟨g, hg, eq_of_beq hgs⟩
    exact ⟨p, c, hc⟩
  · intro ⟨p, c, hp⟩
    obtain ⟨g, hg, hgs⟩ := exists_mem_edgeSetGroups_iff.mpr ⟨c, hp⟩
    exact ⟨p, mem_range.mpr hp.source_lt, any_eq_true.mpr ⟨g, hg, beq_iff_eq.mpr hgs⟩⟩

/-- Some end state is reached from `s` by epsilon edges. -/
def Fsm.EpsEnd (f : Fsm) (s : ℕ) : Prop := ∃ e, f.EpsReach s e ∧ f.IsEnd e

/-- `i` ends up on `s`: it is on a state of the closure that is an end state, or that became
one before `s` was rewritten. -/
def Fsm.Carries (f : Fsm) (s i : ℕ) : Prop :=
  ∃ u, f.EpsReach s u ∧ i ∈ f.endidInfo.get u ∧
    (f.IsEnd u ∨ (u < s ∧ f.Entered u ∧ f.EpsEnd u))

/-- What the rewriting has done when it has got to state `k`. -/
structure Absorbed (f g : Fsm) (k : ℕ) : Prop where
  statecount : g.statecount = f.statecount
  start : g.start = f.start
  visited : ∀ s, (g.state s).visited = false
  edge : ∀ s c t, g.Edge s c t ↔
    f.Edge s c t ∨ (s < k ∧ f.Entered s ∧ ∃ e, f.EpsReach s e ∧ f.Edge e c t)
  isEnd : ∀ s, g.IsEnd s ↔ f.IsEnd s ∨ (s < k ∧ f.Entered s ∧ f.EpsEnd s)
  endids : ∀ s i, i ∈ g.endidInfo.get s ↔
    i ∈ f.endidInfo.get s ∨ (s < k ∧ f.Entered s ∧ f.Carries s i)
  eager : ∀ s i, i ∈ g.eagerOutputInfo.get s ↔ i ∈ f.eagerOutputInfo.get s ∨
    (s < k ∧ f.Entered s ∧ ∃ e, f.EpsReach s e ∧ i ∈ f.eagerOutputInfo.get e)

/-- A state that is skipped keeps the invariant. -/
theorem Absorbed.skip {g : Fsm} (h : Absorbed f g k) (hk : ¬ f.Entered k) :
    Absorbed f g (k + 1) := by
  have hlt : ∀ {s} {P : Prop}, (s < k + 1 ∧ f.Entered s ∧ P) ↔ (s < k ∧ f.Entered s ∧ P) := by
    intro s P
    constructor
    · intro ⟨hs, he, hP⟩
      refine ⟨lt_of_le_of_ne (Nat.le_of_lt_succ hs) ?_, he, hP⟩
      rintro rfl
      exact hk he
    · intro ⟨hs, he, hP⟩
      exact ⟨Nat.lt_succ_of_lt hs, he, hP⟩
  refine ⟨h.statecount, h.start, h.visited, ?_, ?_, ?_, ?_⟩
  · intro s c t
    rw [h.edge, hlt]
  · intro s
    rw [h.isEnd, hlt]
  · intro s i
    rw [h.endids, hlt]
  · intro s i
    rw [h.eager, hlt]

/-- What can be seen in the closure of `k`, when the states before `k` have been rewritten. -/
theorem exists_mem_closure_iff {P Q : ℕ → Prop} {closure : StateSet}
    (hQ : ∀ s, Q s ↔ P s ∨ (s < k ∧ f.Entered s ∧ ∃ e, f.EpsReach s e ∧ P e))
    (hcl : ∀ t, t ∈ closure ↔ f.EpsReach k t) :
    (∃ e ∈ closure, Q e) ↔ ∃ e, f.EpsReach k e ∧ P e := by
  constructor
  · intro ⟨e, he, hQe⟩
    rw [hcl] at he
    rcases (hQ e).mp hQe with hPe | ⟨-, -, e', he', hPe⟩
    · exact ⟨e, he, hPe⟩
    · exact ⟨e', he.trans he', hPe⟩
  · intro ⟨e, he, hPe⟩
    exact ⟨e, (hcl e).mpr he, (hQ e).mpr (.inl hPe)⟩

/-- **Step lemma**: rewriting state `k` with its closure. -/
theorem Absorbed.absorb {g g' : Fsm} (h : Absorbed f g k) (hk : f.Entered k) {closure : StateSet}
    (hcl : ∀ t, t ∈ closure ↔ f.EpsReach k t) (hg' : ClosureAbsorbed g closure k g') :
    Absorbed f g' (k + 1) := by
  have hsplit : ∀ {s} {P : Prop}, (s < k + 1 ∧ f.Entered s ∧ P) ↔
      (s < k ∧ f.Entered s ∧ P) ∨ (s = k ∧ P) := by
    intro s P
    rw [Nat.lt_succ_iff_lt_or_eq]
    constructor
    · intro ⟨hs, he, hP⟩
      rcases hs with hs | hs
      · exact .inl ⟨hs, he, hP⟩
      · exact .inr ⟨hs, hP⟩
    · intro hor
      rcases hor with ⟨hs, he, hP⟩ | ⟨rfl, hP⟩
      · exact ⟨.inl hs, he, hP⟩
      · exact ⟨.inr rfl, hk, hP⟩
  refine ⟨hg'.statecount.trans h.statecount, hg'.start.trans h.start, ?_, ?_, ?_, ?_, ?_⟩
  · intro s
    rw [hg'.visited, h.visited]
  · intro s c t
    rw [hg'.edge, h.edge, hsplit, or_assoc]
    refine or_congr_right (or_congr_right (and_congr_right ?_))
    rintro rfl
    exact exists_mem_closure_iff (fun s => h.edge s c t) hcl
  · intro s
    rw [hg'.isEnd, h.isEnd, hsplit, or_assoc]
    refine or_congr_right (or_congr_right (and_congr_right ?_))
    rintro rfl
    exact exists_mem_closure_iff h.isEnd hcl
  · intro s i
    rw [hg'.endids, h.endids, hsplit, or_assoc]
    refine or_congr_right (or_congr_right (and_congr_right ?_))
    rintro rfl
    constructor
    · -- an ID of a state rewritten earlier comes from that state or its own closure
      intro ⟨u, hu, hend, hi⟩
      rw [hcl] at hu
      rcases (h.endids u i).mp hi with hi | ⟨hus, -, v, hv, hi, hcond⟩
      · refine ⟨u, hu, hi, ?_⟩
        exact (h.isEnd u).mp hend
      · refine ⟨v, hu.trans hv, hi, hcond.imp_right ?_⟩
        exact fun ⟨hvu, hrest⟩ => ⟨hvu.trans hus, hrest⟩
    · intro ⟨u, hu, hi, hcond⟩
      exact ⟨u, (hcl u).mpr hu, (h.isEnd u).mpr hcond, (h.endids u i).mpr (.inl hi)⟩
  · intro s i
    rw [hg'.eager, h.eager, hsplit, or_assoc]
    refine or_congr_right (or_congr_right (and_congr_right ?_))
    rintro rfl
    exact exists_mem_closure_iff (fun s => h.eager s i) hcl

private theorem foldl_absorbed (hf : f.Wf) {start : ℕ} (hstart : f.start = some start)
    (hk : k ≤ f.statecount) :
    Absorbed f ((range k).foldl (fun g s =>
      if reachableByLabel f start s then absorbClosure g ((epsilonClosure f).getD s .null) s
      else g) (f.setVisited fun _ => false)) k := by
  induction k with
  | zero =>
    have hagrees := f.agrees_setVisited fun _ => false
    refine ⟨hagrees.statecount, hagrees.start, ?_, ?_, ?_, ?_, ?_⟩
    · intro s
      refine Fsm.Unmarked.visited_eq ?_ s
      intro s hs
      rw [range_zero, foldl_nil] at hs ⊢
      rw [Fsm.state_setVisited (hagrees.statecount ▸ hs)]
    · intro s c t
      simpa using hagrees.edge s c t
    · intro s
      simpa using hagrees.isEnd s
    · intro s i
      simp [hagrees.endids s]
    · intro s i
      simp [hagrees.eager s]
  | succ k ih =>
    have hih := ih (Nat.le_of_succ_le hk)
    rw [range_succ, foldl_append, foldl_cons]
    split
    · rename_i hlabel
      refine hih.absorb ((reachableByLabel_eq_true_iff hstart).mp hlabel)
        (mem_epsilonClosure hf hk) (absorbClosure_spec _ ?_)
      rw [hih.statecount]
      exact hk
    · rename_i hlabel
      exact hih.skip fun he => hlabel ((reachableByLabel_eq_true_iff hstart).mpr he)

/-- **Removing epsilon edges**: the run succeeds, and leaves an FSM without epsilon edges in
which every state entered by a label has absorbed its closure. -/
theorem fsmRemoveEpsilons_spec (hf : f.Wf) (hstart : f.start.isSome = true) :
    ∃ g, fsmRemoveEpsilons f = some g ∧ Absorbed f g f.statecount ∧ (∀ s t, ¬ g.Eps s t) ∧
      g.Wf := by
  obtain ⟨start, hstart⟩ := Option.isSome_iff_exists.mp hstart
  have habs := foldl_absorbed hf hstart (le_refl f.statecount)
  -- `h` is the FSM after the loop over the states, `m` after the epsilon edges are dropped
  set h := (range f.statecount).foldl (fun g s =>
    if reachableByLabel f start s then absorbClosure g ((epsilonClosure f).getD s .null) s
    else g) (f.setVisited fun _ => false) with hh
  set m := h.modifyAll (range f.statecount) (fun _ st => { st with epsilons := .null })
    with hm
  have hsome : fsmRemoveEpsilons f =
      some { m with captureInfo := remapCaptureActions m.captureInfo (epsilonClosure f) } := by
    have hstart' : fsmGetstart (f.setVisited fun _ => false) = some start :=
      (f.agrees_setVisited _).start.trans hstart
    unfold fsmRemoveEpsilons
    simp only [hstart']
    rfl
  set g := { m with captureInfo := remapCaptureActions m.captureInfo (epsilonClosure f) } with hg
  have hcount : g.statecount = f.statecount :=
    (Fsm.statecount_modifyAll _ _ _).trans habs.statecount
  -- dropping the epsilon edges changes no other part of a state
  have hstate : ∀ s, g.state s = { h.state s with epsilons := .null } := by
    intro s
    show m.state s = _
    rcases lt_or_ge s f.statecount with hs | hs
    · rw [Fsm.state_modifyAll h nodup_range,
        if_pos ⟨mem_range.mpr hs, habs.statecount ▸ hs⟩]
    · have hms : m.statecount ≤ s := le_of_eq_of_le hcount hs
      rw [Fsm.state_of_le hms, Fsm.state_of_le (habs.statecount ▸ hs : h.statecount ≤ s)]
      rfl
  have hedge : ∀ s c t, g.Edge s c t ↔ h.Edge s c t := by
    intro s c t
    rw [Fsm.Edge, hstate, Fsm.Edge]
  have hendids : g.endidInfo = h.endidInfo := Fsm.endidInfo_modifyAll _ _ _
  have heager : g.eagerOutputInfo = h.eagerOutputInfo := Fsm.eagerOutputInfo_modifyAll _ _ _
  have hgstart : g.start = f.start := (Fsm.start_modifyAll _ _ _).trans habs.start
  have heps : ∀ s t, ¬ g.Eps s t := by
    intro s t
    rw [Fsm.Eps, hstate]
    exact notMem_null t
  -- so what the loop has absorbed is still there
  have hgabs : Absorbed f g f.statecount := by
    refine ⟨hcount, hgstart, ?_, ?_, ?_, ?_, ?_⟩
    · intro s
      rw [hstate]
      exact habs.visited s
    · intro s c t
      rw [hedge, habs.edge]
    · intro s
      rw [Fsm.IsEnd, hstate]
      exact habs.isEnd s
    · intro s i
      rw [hendids, habs.endids]
    · intro s i
      rw [heager, habs.eager]
  -- edges and IDs that were absorbed come from states of `f`
  refine ⟨g, hsome, hgabs, heps, ?_, ?_, ?_, ?_, ?_⟩
  · intro s hs
    rw [hcount]
    exact hf.start_lt (hgstart ▸ hs)
  · intro s c t ht
    rw [hcount]
    rcases (hgabs.edge s c t).mp ht with ht | ⟨-, -, e, -, ht⟩
    · exact hf.edge_lt ht
    · exact hf.edge_lt ht
  · exact fun {s t} ht => absurd ht (heps s t)
  · intro s hs
    rw [hcount] at hs
    refine eq_nil_iff_forall_not_mem.mpr fun i hi => ?_
    rcases (hgabs.endids s i).mp hi with hi | ⟨hlt, -⟩
    · rw [hf.endids_below s hs] at hi
      exact not_mem_nil hi
    · omega
  · intro s hs
    rw [hcount] at hs
    refine eq_nil_iff_forall_not_mem.mpr fun i hi => ?_
    rcases (hgabs.eager s i).mp hi with hi | ⟨hlt, -⟩
    · rw [hf.eager_below s hs] at hi
      exact not_mem_nil hi
    · omega

theorem fsmRemoveEpsilons_eq_none (hstart : f.start = none) : fsmRemoveEpsilons f = none := by
  have hstart' : fsmGetstart (f.setVisited fun _ => false) = none :=
    (f.agrees_setVisited _).start.trans hstart
  unfold fsmRemoveEpsilons
  simp only [hstart']

/-! ## §4 What Is Preserved -/

section Preserved

variable {f g : Fsm} (hf : f.Wf) (habs : Absorbed f g f.statecount) (heps : ∀ s t, ¬ g.Eps s t)

include habs heps in
/-- A state active without epsilon edges is active with them, and was entered by a label. -/
theorem Absorbed.active_of_active (hs : g.Active w s) : f.Active w s ∧ f.Entered s := by
  induction hs with
  | @base s hstart =>
    have hstart : f.start = some s := habs.start ▸ hstart
    exact ⟨.base hstart, .inl hstart⟩
  | @eps w s t _ ht _ => exact absurd ht (heps s t)
  | @symbol w c s t _ ht ih =>
    rcases (habs.edge s c t).mp ht with ht | ⟨-, -, e, he, ht⟩
    · exact ⟨.symbol ih.1 ht, .inr ⟨s, c, ht⟩⟩
    · have hactive : ∀ e, f.EpsReach s e → f.Active w e := by
        intro e he
        induction he with
        | refl => exact ih.1
        | tail _ hstep ihe => exact .eps ihe hstep
      exact ⟨.symbol (hactive e he) ht, .inr ⟨e, c, ht⟩⟩

include hf habs heps in
/-- The active states are the closures of those that are active without epsilon edges. -/
theorem Absorbed.active_iff {t : ℕ} : f.Active w t ↔ ∃ s, g.Active w s ∧ f.EpsReach s t := by
  constructor
  · intro ht
    induction ht with
    | @base s hstart => exact ⟨s, .base (habs.start.trans hstart), .refl⟩
    | eps _ ht ih =>
      obtain ⟨s, hs, hreach⟩ := ih
      exact ⟨s, hs, hreach.tail ht⟩
    | @symbol w c p t _ ht ih =>
      obtain ⟨s, hs, hreach⟩ := ih
      obtain ⟨hactive, hentered⟩ := habs.active_of_active heps hs
      refine ⟨t, .symbol hs ((habs.edge s c t).mpr (.inr ?_)), .refl⟩
      exact ⟨hf.active_lt hactive, hentered, p, hreach, ht⟩
  · intro ⟨s, hs, hreach⟩
    obtain ⟨hactive, -⟩ := habs.active_of_active heps hs
    induction hreach with
    | refl => exact hactive
    | tail _ hstep ih => exact .eps ih hstep

include hf habs heps in
/-- What the active states show is what they show with their epsilon edges followed. -/
theorem Absorbed.exists_active_iff {P Q : ℕ → Prop}
    (hQ : ∀ s, Q s ↔ P s ∨ (s < f.statecount ∧ f.Entered s ∧ ∃ e, f.EpsReach s e ∧ P e)) :
    (∃ s, g.Active w s ∧ Q s) ↔ ∃ t, f.Active w t ∧ P t := by
  constructor
  · intro ⟨s, hs, hQs⟩
    rcases (hQ s).mp hQs with hPs | ⟨-, -, e, he, hPe⟩
    · exact ⟨s, (habs.active_of_active heps hs).1, hPs⟩
    · exact ⟨e, (habs.active_iff hf heps).mpr ⟨s, hs, he⟩, hPe⟩
  · intro ⟨t, ht, hPt⟩
    obtain ⟨s, hs, hreach⟩ := (habs.active_iff hf heps).mp ht
    obtain ⟨hactive, hentered⟩ := habs.active_of_active heps hs
    exact ⟨s, hs, (hQ s).mpr (.inr ⟨hf.active_lt hactive, hentered, t, hreach, hPt⟩)⟩

include hf habs heps in
theorem Absorbed.language_eq : g.language = f.language := by
  ext w
  rw [Fsm.mem_language_iff, Fsm.mem_language_iff]
  exact habs.exists_active_iff hf heps habs.isEnd

include hf habs heps in
/-- The removal keeps the eager outputs met after a word. -/
theorem Absorbed.eagerIdsAfter_eq (w : List Byte) : g.eagerIdsAfter w = f.eagerIdsAfter w := by
  ext i
  exact habs.exists_active_iff hf heps fun s => habs.eager s i

/-- `s` is where the last byte of a word leads, before any epsilon edge is followed. -/
inductive Fsm.Lands (f : Fsm) : List Byte → ℕ → Prop
  | start {s : ℕ} : f.start = some s → Lands f [] s
  | symbol {w : List Byte} {c : Byte} {p s : ℕ} :
      f.Active w p → f.Edge p c s → Lands f (w ++ [c]) s

/-- The states a word lands in. -/
def Fsm.landing (f : Fsm) (w : List Byte) : Set ℕ := {s | f.Lands w s}

theorem Fsm.lands_congr (hstart : g.start = f.start)
    (hedge : ∀ s c t, g.Edge s c t ↔ f.Edge s c t) (heps : ∀ s t, g.Eps s t ↔ f.Eps s t) :
    g.Lands w s ↔ f.Lands w s := by
  have hactive := fun {w s} => Fsm.active_congr (w := w) (s := s) hstart hedge heps
  constructor
  · intro hs
    cases hs with
    | start hs => exact .start (hstart.symm.trans hs)
    | symbol hp ht => exact .symbol (hactive.mp hp) ((hedge _ _ _).mp ht)
  · intro hs
    cases hs with
    | start hs => exact .start (hstart.trans hs)
    | symbol hp ht => exact .symbol (hactive.mpr hp) ((hedge _ _ _).mpr ht)

/-- Without epsilon edges, a word lands in the states it makes active. -/
theorem Fsm.lands_iff_active {f : Fsm} (heps : ∀ s t, ¬ f.Eps s t) :
    f.Lands w s ↔ f.Active w s := by
  constructor
  · intro hs
    cases hs with
    | start hs => exact .base hs
    | symbol hp ht => exact .symbol hp ht
  · intro hs
    cases hs with
    | base hs => exact .start hs
    | eps _ ht => exact absurd ht (heps _ _)
    | symbol hp ht => exact .symbol hp ht

include hf habs heps in
theorem Absorbed.active_iff_lands : g.Active w s ↔ f.Lands w s := by
  constructor
  · intro hs
    cases hs with
    | base hstart => exact .start (habs.start ▸ hstart)
    | eps _ ht => exact absurd ht (heps _ _)
    | @symbol w c p _ hp ht =>
      obtain ⟨hactive, -⟩ := habs.active_of_active heps hp
      rcases (habs.edge p c s).mp ht with ht | ⟨-, -, e, he, ht⟩
      · exact .symbol hactive ht
      · exact .symbol ((habs.active_iff hf heps).mpr ⟨p, hp, he⟩) ht
  · intro hs
    cases hs with
    | start hstart => exact .base (habs.start.trans hstart)
    | @symbol w c p _ hp ht =>
      obtain ⟨q, hq, hreach⟩ := (habs.active_iff hf heps).mp hp
      obtain ⟨hactive, hentered⟩ := habs.active_of_active heps hq
      exact .symbol hq ((habs.edge q c s).mpr
        (.inr ⟨hf.active_lt hactive, hentered, p, hreach, ht⟩))

/-- No state that becomes an end state through its epsilon edges brings end IDs of its own
into a closure, unless an end state active at the time has them too. -/
def Fsm.NoStaleEndIds (f : Fsm) : Prop :=
  ∀ w s u i, f.Lands w s → f.EpsReach s u → u ≤ s → f.Entered u → f.EpsEnd u →
    i ∈ f.endidInfo.get u → i ∈ f.endIdsAfter w

include hf habs heps in
/-- Helper: the end IDs reported without epsilon edges. -/
private theorem Absorbed.mem_endIdsAfter {i : ℕ} :
    i ∈ g.endIdsAfter w ↔ ∃ s, f.Lands w s ∧ f.Entered s ∧ f.EpsEnd s ∧
      (i ∈ f.endidInfo.get s ∨ f.Carries s i) := by
  have hiff : ∀ s, g.Active w s → (g.IsEnd s ∧ i ∈ g.endidInfo.get s ↔
      f.EpsEnd s ∧ (i ∈ f.endidInfo.get s ∨ f.Carries s i)) := by
    intro s hs
    obtain ⟨hactive, hentered⟩ := habs.active_of_active heps hs
    rw [habs.isEnd, habs.endids]
    simp only [hf.active_lt hactive, hentered, true_and]
    refine and_congr_left fun _ => or_iff_right_of_imp ?_
    exact fun hend => ⟨s, .refl, hend⟩
  constructor
  · intro ⟨s, hs, hrest⟩
    exact ⟨s, (habs.active_iff_lands hf heps).mp hs, (habs.active_of_active heps hs).2,
      (hiff s hs).mp hrest⟩
  · intro ⟨s, hs, _, hrest⟩
    have hs' := (habs.active_iff_lands hf heps).mpr hs
    exact ⟨s, hs', (hiff s hs').mpr hrest⟩

include hf habs heps in
/-- The removal keeps the end IDs exactly when no stale ones are brought in. -/
theorem Absorbed.endIdsAfter_eq_iff :
    (∀ w, g.endIdsAfter w = f.endIdsAfter w) ↔ f.NoStaleEndIds := by
  constructor
  · intro heq w s u i hlands hreach hus hentered hend hi
    rw [← heq, habs.mem_endIdsAfter hf heps]
    have hs : f.Entered s := by
      cases hlands with
      | start hstart => exact .inl hstart
      | symbol _ ht => exact .inr ⟨_, _, ht⟩
    have hends : f.EpsEnd s := by
      obtain ⟨e, he, hee⟩ := hend
      exact ⟨e, hreach.trans he, hee⟩
    refine ⟨s, hlands, hs, hends, ?_⟩
    rcases Nat.eq_or_lt_of_le hus with rfl | hlt
    · exact .inl hi
    · exact .inr ⟨u, hreach, hi, .inr ⟨hlt, hentered, hend⟩⟩
  · intro hno w
    ext i
    rw [habs.mem_endIdsAfter hf heps]
    constructor
    · intro ⟨s, hlands, hentered, hend, hi⟩
      have hs := (habs.active_iff_lands hf heps).mpr hlands
      rcases hi with hi | ⟨u, hreach, hi, hu | ⟨hlt, hu, hue⟩⟩
      · exact hno w s s i hlands .refl (le_refl s) hentered hend hi
      · exact ⟨u, (habs.active_iff hf heps).mpr ⟨s, hs, hreach⟩, hu, hi⟩
      · exact hno w s u i hlands hreach hlt.le hu hue hi
    · intro ⟨t, ht, hend, hi⟩
      obtain ⟨s, hs, hreach⟩ := (habs.active_iff hf heps).mp ht
      exact ⟨s, (habs.active_iff_lands hf heps).mp hs, (habs.active_of_active heps hs).2,
        ⟨t, hreach, hend⟩, .inr ⟨t, hreach, hi, .inl hend⟩⟩

end Preserved

/-- Without epsilon edges there are no stale end IDs. -/
theorem Fsm.noStaleEndIds_of_no_eps (h : ∀ s t, ¬ f.Eps s t) : f.NoStaleEndIds := by
  have hreach : ∀ {s t}, f.EpsReach s t → s = t := by
    intro s t hst
    rcases hst.cases_head with heq | ⟨u, hu, -⟩
    · exact heq
    · exact absurd hu (h s u)
  intro w s u i hlands hsu _ _ ⟨e, hue, hend⟩ hi
  obtain rfl := hreach hsu
  obtain rfl := hreach hue
  refine ⟨s, ?_, hend, hi⟩
  cases hlands with
  | start hstart => exact .base hstart
  | symbol hp ht => exact .symbol hp ht

/-! ## §5 Exactness -/

/-- `g` is `f` without epsilon edges: the same states and start state, and for every word what
`f` shows with its epsilon edges followed. -/
structure Fsm.EpsilonsRemoved (f g : Fsm) : Prop where
  no_eps : ∀ s t, ¬ g.Eps s t
  statecount : g.statecount = f.statecount
  start : g.start = f.start
  language : ∀ w, w ∈ g.language ↔ w ∈ f.language
  endIds : ∀ w, g.endIdsAfter w = f.endIdsAfter w
  eagerIds : ∀ w, g.eagerIdsAfter w = f.eagerIdsAfter w

/-- The removal succeeds, and is exact if and only if no end ID that was left on a state without
an end mark comes back with the end mark the state absorbs. -/
theorem fsmRemoveEpsilons_exact_iff {f : Fsm} (hf : f.Wf) (hstart : f.start.isSome = true) :
    ∃ g, fsmRemoveEpsilons f = some g ∧ (f.EpsilonsRemoved g ↔ f.NoStaleEndIds) := by
  obtain ⟨g, hg, habs, heps, -⟩ := fsmRemoveEpsilons_spec hf hstart
  refine ⟨g, hg, ?_⟩
  rw [← habs.endIdsAfter_eq_iff hf heps]
  constructor
  · exact fun h => h.endIds
  · intro hends
    exact ⟨heps, habs.statecount, habs.start, fun w => by rw [habs.language_eq hf heps], hends,
      habs.eagerIdsAfter_eq hf heps⟩

/-- Two states: an epsilon edge leads from the start state to an end state, and the start
state, which is no end state, has an end ID. -/
def staleEndIdFsm : Fsm :=
  let f := fsmSetend (fsmAddstateBulk fsmNew 2) 1 true
  let f := fsmSetstart (fsmAddedgeEpsilon f 0 1) 0
  { f with endidInfo := endidSet f.endidInfo 0 7 }

/-- Its one end state has no IDs, so none is ever reported. -/
theorem staleEndIdFsm_endIdsAfter (w : List Byte) : staleEndIdFsm.endIdsAfter w = ∅ := by
  apply Set.eq_empty_of_forall_notMem
  intro i ⟨s, _, hs, hi⟩
  have hlt : s < 2 := hs.lt
  interval_cases s
  · exact absurd hs (by decide)
  · exact absurd hi (by decide +revert)

/-- Without its epsilon edge the start state is an end state, and reports its old ID. -/
theorem fsmRemoveEpsilons_brings_back_endId :
    ∃ g, fsmRemoveEpsilons staleEndIdFsm = some g ∧ 7 ∈ g.endIdsAfter [] ∧
      staleEndIdFsm.endIdsAfter [] = ∅ := by
  have hrun : (fsmRemoveEpsilons staleEndIdFsm).map
      (fun g => (g.start, (g.state 0).isEnd, g.endidInfo.get 0)) = some (some 0, true, [7]) := by
    decide +kernel
  obtain ⟨g, hg, hval⟩ := Option.map_eq_some_iff.mp hrun
  simp only [Prod.mk.injEq] at hval
  obtain ⟨hstart, hend, hids⟩ := hval
  exact ⟨g, hg, ⟨0, .base hstart, hend, by rw [hids]; decide⟩, staleEndIdFsm_endIdsAfter []⟩

/-- A word of `a`s and `b`s with an `a` next to the last place, with an epsilon edge. -/
def nextToLastFsm : Fsm :=
  let f := fsmSetend (fsmAddstateBulk fsmNew 4) 3 true
  let f := fsmAddedgeLiteral (fsmAddedgeLiteral f 0 0 97) 0 0 98
  let f := fsmAddedgeLiteral (fsmAddedgeEpsilon f 0 1) 1 2 97
  let f := fsmAddedgeLiteral (fsmAddedgeLiteral f 2 3 97) 2 3 98
  fsmSetstart { f with endidInfo := endidSet f.endidInfo 3 1 } 0

theorem fsmRemoveEpsilons_exact_iff_nextToLast :
    ∃ g, fsmRemoveEpsilons nextToLastFsm = some g ∧
      (nextToLastFsm.EpsilonsRemoved g ↔ nextToLastFsm.NoStaleEndIds) :=
  fsmRemoveEpsilons_exact_iff (Fsm.wf_of_wfCheck (by decide +kernel)) rfl

end Libfsm
