import Libfsm.Ops.Epsilons
import Libfsm.Ops.SubsetConstruction

/-!
# Determinisation

`fsm_determinise_with_config` of `determinise.c`: epsilon edges are removed first, then the
subset construction finds the DFA states, and last the DFA is built from them with end
marks, end IDs, capture actions and eager outputs.

- `fsmDeterminiseWithConfig`, `fsmDeterminise`: the functions
- `buildDfa_spec`: the record that is built from the DFA states
- `Fsm.Exact`: two FSMs look the same from outside: language, end IDs, eager outputs
- `fsmDeterminise_spec`: determinisation is exact but for end IDs that the removal of
  epsilon edges brings in
- `Fsm.OffsetsFit`: all successor sets together can be addressed with 32 bits
-/

namespace Libfsm

open Lib
open List hiding set map nil cons

variable {st : DetState} {d s start : ℕ} {f nfa : Fsm} {w : List Byte}

/-! ## §1 Building The DFA -/

/-- `fsm_endid_carry`: the end IDs of the end states of a set. -/
def fsmEndidCarry (src : Fsm) (set : StateSet) (dst : Fsm) (d : ℕ) : Fsm :=
  let ids := set.toList.flatMap fun s => if fsmIsend src s then src.endidInfo.get s else []
  { dst with endidInfo := ids.foldl (fun m id => endidSet m d id) dst.endidInfo }

def stateSetHas (f : Fsm) (set : StateSet) (predicate : Fsm → ℕ → Bool) : Bool :=
  set.toList.any (predicate f)

/-- The state set behind a DFA state. -/
def DetState.stateSet (st : DetState) (d : ℕ) : StateSet :=
  internedStateSetGetStateSet st.pool (st.map.issOf.items.getD d (.singleton 0))

/-- The body of the loop over the map: move the edges over, and carry the end mark and the
end IDs. -/
def transferMapping (nfa : Fsm) (st : DetState) (dfa : Fsm) (d : ℕ) : Fsm :=
  let dfa := dfa.modifyState d fun s => { s with edges := st.map.edgesOf d }
  if stateSetHas nfa (st.stateSet d) fsmIsend then
    fsmEndidCarry nfa (st.stateSet d) (fsmSetend dfa d true) d
  else dfa

/-- `build_reverse_mappings`: the DFA states with an NFA state in their set. -/
def reverseMapping (st : DetState) (s : ℕ) : List ℕ :=
  (entries st.map.issOf.buckets).filter fun d => decide (s ∈ st.stateSet d)

/-- `det_copy_capture_actions_cb`: an action is repeated for every pair of DFA states. -/
def detCopyCaptureActions (st : DetState) (a : CaptureAction) : List CaptureAction :=
  (reverseMapping st a.state).flatMap fun s =>
    match a.dest with
    | none => [{ a with state := s }]
    | some t => (reverseMapping st t).map fun t => { a with state := s, dest := some t }

/-- `remap_capture_actions` -/
def detRemapCaptureActions (nfa : Fsm) (st : DetState) (ci : CaptureInfo) : CaptureInfo :=
  if nfa.captureInfo.count = 0 then ci
  else (nfa.captureInfo.buckets.flatMap (detCopyCaptureActions st)).foldl CaptureInfo.addAction ci

/-- The body of `remap_eager_outputs`: set the IDs of every state of the set. -/
def remapEagerOutput (nfa : Fsm) (st : DetState) (dfa : Fsm) (d : ℕ) : Fsm :=
  ((st.stateSet d).toList.flatMap fun s => nfa.eagerOutputInfo.get s).foldl
    (fun dfa id => fsmEagerOutputSet dfa d id) dfa

/-- The last part of `fsm_determinise_with_config`.  `map_first` and `map_next` go through
the table bucket by bucket. -/
def buildDfa (nfa : Fsm) (st : DetState) : Fsm :=
  let mappings := entries st.map.issOf.buckets
  -- the first mapping was that of the start state
  let dfa := fsmSetstart (fsmAddstateBulk fsmNew st.map.count) 0
  let dfa := mappings.foldl (transferMapping nfa st) dfa
  let dfa := { dfa with captureInfo := detRemapCaptureActions nfa st dfa.captureInfo }
  mappings.foldl (remapEagerOutput nfa st) dfa

/-- `fsm_determinise_with_config`: the result, and what becomes of the FSM. -/
def fsmDeterminiseWithConfig (nfa : Fsm) (stateLimit : ℕ) : DeterminiseRes × Fsm :=
  match if fsmHas nfa fsmHasepsilons then fsmRemoveEpsilons nfa else some nfa with
  -- the closures have cleared all marks
  | none => (.errno, nfa.setVisited fun _ => false)
  | some nfa =>
    if stateLimit ≠ 0 ∧ stateLimit < nfa.statecount then (.stateLimitReached, nfa)
    else
      match fsmGetstart nfa with
      | none => (.ok, nfa)
      | some start =>
        let (iss, pool) := internedStateSetInternSet internedStateSetPoolAlloc [start]
        match detLoop nfa stateLimit (2 ^ nfa.statecount)
          { map := mapAdd {} iss, pool := pool } 0 with
        | .error res => (res, nfa)
        | .ok st => (.ok, buildDfa nfa st)

/-- `fsm_determinise`: the FSM if it returns 1. -/
def fsmDeterminise (nfa : Fsm) : Option Fsm :=
  match fsmDeterminiseWithConfig nfa 0 with
  | (.ok, dfa) => some dfa
  | _ => none

/-! ## §2 The Record Built -/

theorem mem_stateSet_iff (hd : d < st.map.count) : s ∈ st.stateSet d ↔ s ∈ st.states d := by
  have hget : st.map.issOf.items[d]? = some (st.map.issOf.items.getD d (.singleton 0)) := by
    rw [getElem?_eq_getElem hd, getD_eq_getElem _ _ hd]
  unfold DetState.stateSet
  rw [mem_internedStateSetGetStateSet, DetState.states_eq hget]

theorem states_of_le (hd : st.map.count ≤ d) : st.states d = [] := by
  unfold DetState.states
  rw [getElem?_eq_none hd]
  rfl

/-- The state of the DFA for a set, but for its flag for eager outputs. -/
def dfaState (nfa : Fsm) (st : DetState) (d : ℕ) : FsmState where
  edges := st.map.edgesOf d
  isEnd := stateSetHas nfa (st.stateSet d) fsmIsend

theorem isEnd_dfaState (hd : d < st.map.count) :
    (dfaState nfa st d).isEnd = true ↔ ∃ s ∈ st.states d, nfa.IsEnd s := by
  show stateSetHas nfa (st.stateSet d) fsmIsend = true ↔ _
  unfold stateSetHas
  rw [any_eq_true]
  apply exists_congr
  intro s
  rw [← mem_stateSet, mem_stateSet_iff hd]
  rfl

/-- What the loop over the map has done when it has come past `l`. -/
structure Transferred (nfa : Fsm) (st : DetState) (l : List ℕ) (dfa : Fsm) : Prop where
  statecount : dfa.statecount = st.map.count
  start : dfa.start = some 0
  state : ∀ d < st.map.count, dfa.state d = if d ∈ l then dfaState nfa st d else .fresh
  endids : ∀ d i, i ∈ dfa.endidInfo.get d ↔
    d ∈ l ∧ ∃ s ∈ st.states d, nfa.IsEnd s ∧ i ∈ nfa.endidInfo.get s
  eager : ∀ d, dfa.eagerOutputInfo.get d = []

theorem mem_carriedIds (hd : d < st.map.count) {i : ℕ} :
    (i ∈ (st.stateSet d).toList.flatMap fun s =>
      if fsmIsend nfa s then nfa.endidInfo.get s else []) ↔
      ∃ s ∈ st.states d, nfa.IsEnd s ∧ i ∈ nfa.endidInfo.get s := by
  rw [mem_flatMap]
  apply exists_congr
  intro s
  rw [← mem_stateSet, mem_stateSet_iff hd]
  by_cases hend : nfa.IsEnd s
  · have hend' : fsmIsend nfa s = true := hend
    simp [hend, hend']
  · have hend' : fsmIsend nfa s = false := by simpa [fsmIsend, Fsm.IsEnd] using hend
    simp [hend, hend']

theorem Transferred.step {l : List ℕ} {dfa : Fsm} (h : Transferred nfa st l dfa)
    (hd : d < st.map.count) : Transferred nfa st (l ++ [d]) (transferMapping nfa st dfa d) := by
  have hd' : d < dfa.statecount := h.statecount.symm ▸ hd
  have hmem : ∀ e, e ∈ l ++ [d] ↔ e ∈ l ∨ e = d := by simp
  -- whether or not `d` was met before, its state has edges and an end mark at most
  have hshape : ∃ es b, dfa.state d = { edges := es, isEnd := b } ∧
      (b = true → stateSetHas nfa (st.stateSet d) fsmIsend = true) := by
    rw [h.state d hd]
    split
    · exact ⟨_, _, rfl, fun hb => hb⟩
    · exact ⟨_, false, rfl, fun hb => absurd hb Bool.false_ne_true⟩
  obtain ⟨es, b, hstate, hb⟩ := hshape
  have hother : ∀ {g : Fsm}, (∀ e ≠ d, g.state e = dfa.state e) →
      g.state d = dfaState nfa st d → ∀ e < st.map.count,
      g.state e = if e ∈ l ++ [d] then dfaState nfa st e else .fresh := by
    intro g hg hgd e he
    by_cases hed : e = d
    · rw [hed, hgd, if_pos ((hmem d).mpr (.inr rfl))]
    · rw [hg e hed, h.state e he]
      simp [hed]
  unfold transferMapping
  split
  · rename_i hend
    refine ⟨?_, ?_, hother (fun e he => ?_) ?_, fun e i => ?_, fun e => ?_⟩
    · show (fsmSetend _ d true).statecount = _
      rw [statecount_fsmSetend, Fsm.statecount_modifyState, h.statecount]
    · show (fsmSetend _ d true).start = _
      rw [start_fsmSetend, Fsm.start_modifyState, h.start]
    · show (fsmSetend _ d true).state e = _
      rw [state_fsmSetend, if_neg fun h => he h.1, Fsm.state_modifyState_ne he]
    · show (fsmSetend _ d true).state d = _
      rw [state_fsmSetend, Fsm.statecount_modifyState, if_pos ⟨rfl, hd'⟩,
        Fsm.state_modifyState_self hd', hstate]
      unfold dfaState
      rw [hend]
    · show i ∈ IdTable.get (List.foldl _ (fsmSetend _ d true).endidInfo _) e ↔ _
      rw [mem_get_foldl_endidSet, endidInfo_fsmSetend, Fsm.endidInfo_modifyState,
        mem_carriedIds hd, h.endids, hmem]
      constructor
      · rintro (⟨rfl, hi⟩ | ⟨he, hi⟩)
        · exact ⟨.inr rfl, hi⟩
        · exact ⟨.inl he, hi⟩
      · rintro ⟨he | rfl, hi⟩
        · exact .inr ⟨he, hi⟩
        · exact .inl ⟨rfl, hi⟩
    · show IdTable.get (fsmSetend _ d true).eagerOutputInfo e = _
      rw [eagerOutputInfo_fsmSetend, Fsm.eagerOutputInfo_modifyState, h.eager]
  · rename_i hend
    refine ⟨?_, h.start, hother (fun e he => ?_) ?_, fun e i => ?_, h.eager⟩
    · rw [Fsm.statecount_modifyState, h.statecount]
    · exact Fsm.state_modifyState_ne he _
    · rw [Fsm.state_modifyState_self hd', hstate]
      have hbf : b = false := by
        by_contra hbt
        exact hend (hb (by simpa using hbt))
      unfold dfaState
      rw [hbf, Bool.not_eq_true] at *
      rw [hend]
    · rw [Fsm.endidInfo_modifyState, h.endids, hmem]
      -- no state of the set is an end state
      have hno : e = d → ¬ ∃ s ∈ st.states e, nfa.IsEnd s ∧ i ∈ nfa.endidInfo.get s := by
        rintro rfl ⟨s, hs, hse, -⟩
        exact hend ((isEnd_dfaState hd).mpr ⟨s, hs, hse⟩)
      constructor
      · intro ⟨he, hi⟩
        exact ⟨.inl he, hi⟩
      · rintro ⟨he | he, hi⟩
        · exact ⟨he, hi⟩
        · exact absurd hi (hno he)

/-- The record for the DFA states, one state for each. -/
structure Built (nfa : Fsm) (st : DetState) (dfa : Fsm) : Prop where
  statecount : dfa.statecount = st.map.count
  start : dfa.start = some 0
  state : ∀ d < st.map.count, ∃ b, dfa.state d = { dfaState nfa st d with hasEagerOutputs := b }
  endids : ∀ d i, i ∈ dfa.endidInfo.get d ↔
    ∃ s ∈ st.states d, nfa.IsEnd s ∧ i ∈ nfa.endidInfo.get s
  eager : ∀ d i, i ∈ dfa.eagerOutputInfo.get d ↔
    ∃ s ∈ st.states d, i ∈ nfa.eagerOutputInfo.get s

theorem foldl_remapEagerOutput (nfa : Fsm) (st : DetState) (l : List ℕ)
    (hl : ∀ d ∈ l, d < st.map.count) (dfa : Fsm) :
    SameButEager dfa (l.foldl (remapEagerOutput nfa st) dfa) ∧
      ∀ d i, i ∈ (l.foldl (remapEagerOutput nfa st) dfa).eagerOutputInfo.get d ↔
        i ∈ dfa.eagerOutputInfo.get d ∨
          (d ∈ l ∧ ∃ s ∈ st.states d, i ∈ nfa.eagerOutputInfo.get s) := by
  refine ⟨.foldl l (fun dfa d => (foldl_fsmEagerOutputSet d _ dfa).1) dfa, fun d i => ?_⟩
  have hset : d ∈ l → ((i ∈ (st.stateSet d).toList.flatMap fun s => nfa.eagerOutputInfo.get s) ↔
      ∃ s ∈ st.states d, i ∈ nfa.eagerOutputInfo.get s) := by
    intro hd
    rw [mem_flatMap]
    apply exists_congr
    intro s
    rw [← mem_stateSet, mem_stateSet_iff (hl d hd)]
  rw [foldl_or_iff (fun dfa : Fsm => i ∈ dfa.eagerOutputInfo.get d) fun dfa e => by
    rw [remapEagerOutput, (foldl_fsmEagerOutputSet e _ dfa).2]]
  apply or_congr_right
  constructor
  · rintro ⟨_, hd, rfl, hi⟩
    exact ⟨hd, (hset hd).mp hi⟩
  · rintro ⟨hd, hi⟩
    exact ⟨d, hd, rfl, (hset hd).mpr hi⟩

theorem buildDfa_spec (hmap : st.map.Valid) : Built nfa st (buildDfa nfa st) := by
  have hentries : ∀ d, d ∈ entries st.map.issOf.buckets ↔ d < st.map.count :=
    fun d => hmap.interner.mem_entries
  set mappings := entries st.map.issOf.buckets with hmappings
  -- first the loop that moves the edges
  have htransfer : ∀ l l' dfa, (∀ d ∈ l', d < st.map.count) → Transferred nfa st l dfa →
      Transferred nfa st (l ++ l') (l'.foldl (transferMapping nfa st) dfa) := by
    intro l l'
    induction l' generalizing l with
    | nil =>
      intro dfa _ h
      rwa [append_nil]
    | cons d l' ih =>
      intro dfa hl' h
      rw [append_cons]
      exact ih _ _ (fun e he => hl' e (mem_cons_of_mem d he))
        (h.step (hl' d mem_cons_self))
  obtain ⟨alloc, hbulk⟩ := fsmAddstateBulk_eq fsmNew st.map.count
  have hinit : Transferred nfa st [] (fsmSetstart (fsmAddstateBulk fsmNew st.map.count) 0) := by
    refine ⟨?_, rfl, fun d hd => ?_, ?_, ?_⟩
    · show (fsmAddstateBulk fsmNew st.map.count).statecount = _
      rw [statecount_fsmAddstateBulk]
      exact zero_add _
    · show (fsmAddstateBulk fsmNew st.map.count).state d = _
      rw [state_fsmAddstateBulk]
      exact Fsm.state_of_le (Nat.zero_le d)
    · rw [hbulk]
      simp [fsmSetstart, fsmNew, fsmNewStatealloc]
    · rw [hbulk]
      simp [fsmSetstart, fsmNew, fsmNewStatealloc]
  have hmoved := htransfer [] mappings _ (fun d hd => (hentries d).mp hd) hinit
  rw [nil_append] at hmoved
  unfold buildDfa
  dsimp only
  rw [← hmappings]
  generalize mappings.foldl (transferMapping nfa st) _ = dfa at hmoved
  -- then the loop that sets the eager outputs
  obtain ⟨⟨hcount, hstate, hstart, hids⟩, heager⟩ := foldl_remapEagerOutput nfa st mappings
    (fun d hd => (hentries d).mp hd)
    { dfa with captureInfo := detRemapCaptureActions nfa st dfa.captureInfo }
  refine ⟨hcount.trans hmoved.statecount, hstart.trans hmoved.start, fun d hd => ?_,
    fun d i => ?_, fun d i => ?_⟩
  · obtain ⟨b, hb⟩ := hstate d
    refine ⟨b, hb.trans ?_⟩
    show { dfa.state d with hasEagerOutputs := b } = _
    rw [hmoved.state d hd, if_pos ((hentries d).mpr hd)]
  · rw [hids]
    show i ∈ dfa.endidInfo.get d ↔ _
    rw [hmoved.endids, hentries]
    apply and_iff_right_of_imp
    rintro ⟨s, hs, -⟩
    by_contra hge
    rw [states_of_le (not_lt.mp hge)] at hs
    cases hs
  · rw [heager]
    rw [hmoved.eager, hentries]
    constructor
    · rintro (hi | ⟨-, hi⟩)
      · cases hi
      · exact hi
    · rintro ⟨s, hs, hi⟩
      refine .inr ⟨?_, s, hs, hi⟩
      by_contra hge
      rw [states_of_le (not_lt.mp hge)] at hs
      cases hs

/-! ## §3 The DFA And The NFA -/

section Exactness

variable {nfa dfa : Fsm} {start : ℕ} {st : DetState}

namespace Built

section

variable (hb : Built nfa st dfa)
include hb

theorem edge_iff (hmap : st.map.Valid) {c : Byte} {e : ℕ} :
    dfa.Edge d c e ↔ (st.map.edgesOf d).HasEdge c e := by
  rcases lt_or_ge d st.map.count with hd | hd
  · obtain ⟨b, hstate⟩ := hb.state d hd
    rw [Fsm.Edge, hstate]
    rfl
  · rw [Fsm.Edge, Fsm.state_of_le (hb.statecount.trans_le hd), hmap.edgesOf_of_le hd]
    rfl

theorem not_eps (d e : ℕ) : ¬ dfa.Eps d e := by
  rcases lt_or_ge d st.map.count with hd | hd
  · obtain ⟨b, hstate⟩ := hb.state d hd
    rw [Fsm.Eps, hstate]
    exact notMem_null e
  · rw [Fsm.Eps, Fsm.state_of_le (hb.statecount.trans_le hd)]
    exact notMem_null e

theorem isEnd_iff : dfa.IsEnd d ↔ ∃ s ∈ st.states d, nfa.IsEnd s := by
  rcases lt_or_ge d st.map.count with hd | hd
  · obtain ⟨b, hstate⟩ := hb.state d hd
    rw [Fsm.IsEnd, hstate]
    exact isEnd_dfaState hd
  · rw [Fsm.IsEnd, Fsm.state_of_le (hb.statecount.trans_le hd), states_of_le hd]
    simp

theorem unmarked : dfa.Unmarked := by
  intro d hd
  obtain ⟨b, hstate⟩ := hb.state d (hb.statecount ▸ hd)
  rw [hstate]
  rfl

theorem wf (h : DetInv nfa start st []) : dfa.Wf where
  start_lt hs := by
    rw [hb.start, Option.some.injEq] at hs
    rw [← hs, hb.statecount]
    exact h.count_pos
  edge_lt := by
    intro d c e he
    have hd : d < st.map.count := hb.statecount ▸ he.source_lt
    rw [hb.edge_iff h.map] at he
    rw [hb.statecount]
    exact ((h.done d hd not_mem_nil).sound c e he).1
  eps_lt he := absurd he (hb.not_eps _ _)
  endids_below := by
    intro d hd
    rw [hb.statecount] at hd
    rw [eq_nil_iff_forall_not_mem]
    intro i hi
    obtain ⟨s, hs, -⟩ := (hb.endids d i).mp hi
    rw [states_of_le hd] at hs
    cases hs
  eager_below := by
    intro d hd
    rw [hb.statecount] at hd
    rw [eq_nil_iff_forall_not_mem]
    intro i hi
    obtain ⟨s, hs, -⟩ := (hb.eager d i).mp hi
    rw [states_of_le hd] at hs
    cases hs

theorem isDfa (h : DetInv nfa start st []) : dfa.IsDfa := by
  refine Fsm.isDfa_iff.mpr ⟨fun _ => by rw [hb.start]; rfl, hb.not_eps, ?_⟩
  intro d c e e' he he'
  have hd : d < st.map.count := hb.statecount ▸ he.source_lt
  rw [hb.edge_iff h.map] at he he'
  have hexp := h.done d hd not_mem_nil
  obtain ⟨hlt, hmem⟩ := hexp.sound c e he
  obtain ⟨hlt', hmem'⟩ := hexp.sound c e' he'
  -- both stand for the set of all destinations
  exact h.states_inj hlt hlt' fun t => (hmem t).trans (hmem' t).symm

theorem reachable (h : DetInv nfa start st []) (hd : d < dfa.statecount) : dfa.Reachable d := by
  -- every DFA state is entered from one with a lower number
  induction d using Nat.strong_induction_on with
  | _ d ih =>
    rcases h.entered d (hb.statecount ▸ hd) with rfl | ⟨p, hp, c, hpc⟩
    · exact ⟨[], Lib.Active.base hb.start⟩
    · obtain ⟨w, hw⟩ := ih p hp (hp.trans hd)
      exact ⟨w ++ [c], Lib.Active.symbol hw ((hb.edge_iff h.map).mpr hpc)⟩

/-- The DFA realises the subset construction of the NFA. -/
theorem realises (h : DetInv nfa start st []) :
    Realises dfa.toNfa {d | d < st.map.count} (subsetStep nfa.toNfa) {start}
      (fun d => {s | s ∈ st.states d}) where
  eps d _ := by
    ext e
    exact iff_of_false (hb.not_eps d e) (Set.notMem_empty e)
  start d hd := by
    rw [Fsm.mem_toNfa_start, hb.start, Option.some.injEq] at hd
    subst hd
    refine ⟨h.count_pos, ?_⟩
    simp [h.start]
  start_nonempty := ⟨0, hb.start⟩
  step d hd c e he := by
    have he : (st.map.edgesOf d).HasEdge c e := (hb.edge_iff h.map).mp he
    obtain ⟨hlt, hmem⟩ := (h.done d hd not_mem_nil).sound c e he
    refine ⟨hlt, subsetStep_eq_some_iff.mpr ⟨?_, ?_⟩⟩
    · exact exists_mem_of_ne_nil _ (h.proper e hlt).nonempty
    · ext t
      exact hmem t
  exists_step d hd c T hT := by
    obtain ⟨⟨t, ht⟩, rfl⟩ := subsetStep_eq_some_iff.mp hT
    obtain ⟨s, hs, hst⟩ := ht
    obtain ⟨e, he⟩ := (h.done d hd not_mem_nil).complete c s t hs hst
    exact ⟨e, (hb.edge_iff h.map).mpr he⟩

end

variable (hb : Built nfa st dfa) (h : DetInv nfa start st []) (hstart : nfa.start = some start)
  (heps : ∀ s t, ¬ nfa.Eps s t)

include hb h hstart heps

/-- The DFA state reached by a word stands for the states active after it. -/
theorem mem_states_iff (hd : dfa.Active w d) : s ∈ st.states d ↔ nfa.Active w s := by
  have hno : ∀ s, nfa.toNfa.step s none = ∅ := fun s =>
    Set.eq_empty_of_forall_notMem fun t ht => heps s t ht
  have hrun := ((hb.realises h).run_of_active hd).2
  rw [runFrom_subsetStep_iff hno (Set.singleton_nonempty start)] at hrun
  rw [Fsm.Active, Fsm.toNfa_start_eq hstart]
  exact Set.ext_iff.mp hrun.2 s

/-- If the NFA has active states, the DFA has a state for them. -/
theorem exists_active (hs : nfa.Active w s) : ∃ d, dfa.Active w d := by
  have hno : ∀ s, nfa.toNfa.step s none = ∅ := fun s =>
    Set.eq_empty_of_forall_notMem fun t ht => heps s t ht
  rw [Fsm.Active, Fsm.toNfa_start_eq hstart] at hs
  obtain ⟨d, hd, -⟩ := (hb.realises h).exists_active
    ((runFrom_subsetStep_iff hno (Set.singleton_nonempty start)).mpr ⟨⟨s, hs⟩, rfl⟩)
  exact ⟨d, hd⟩

/-- What a word shows at the DFA state it reaches is what it shows at the active states of
the NFA, for every property that the DFA state has when a state of its set has it. -/
theorem exists_active_iff {P Q : ℕ → Prop} (hPQ : ∀ d, Q d ↔ ∃ s ∈ st.states d, P s)
    (w : List Byte) : (∃ d, dfa.Active w d ∧ Q d) ↔ ∃ s, nfa.Active w s ∧ P s := by
  constructor
  · intro ⟨d, hd, hQ⟩
    obtain ⟨s, hs, hP⟩ := (hPQ d).mp hQ
    exact ⟨s, (hb.mem_states_iff h hstart heps hd).mp hs, hP⟩
  · intro ⟨s, hs, hP⟩
    obtain ⟨d, hd⟩ := hb.exists_active h hstart heps hs
    exact ⟨d, hd, (hPQ d).mpr ⟨s, (hb.mem_states_iff h hstart heps hd).mpr hs, hP⟩⟩

theorem language_eq : dfa.language = nfa.language := by
  ext w
  rw [Fsm.mem_language_iff, Fsm.mem_language_iff]
  exact hb.exists_active_iff h hstart heps (fun d => hb.isEnd_iff) w

theorem eagerIdsAfter_eq (w : List Byte) : dfa.eagerIdsAfter w = nfa.eagerIdsAfter w := by
  ext i
  exact hb.exists_active_iff h hstart heps (fun d => hb.eager d i) w

theorem endIdsAfter_eq (w : List Byte) : dfa.endIdsAfter w = nfa.endIdsAfter w := by
  ext i
  apply hb.exists_active_iff h hstart heps (P := fun s => nfa.IsEnd s ∧ i ∈ nfa.endidInfo.get s)
  intro d
  rw [hb.endids, hb.isEnd_iff]
  apply and_iff_right_of_imp
  intro ⟨s, hs, hend, _⟩
  exact ⟨s, hs, hend⟩

end Built

end Exactness

/-! ## §4 Determinisation -/

/-- The loop starts with one DFA state, for the start state. -/
theorem detInv_init (hnfa : nfa.Wf) (hstart : nfa.start = some start) :
    DetInv nfa start { map := mapAdd {} (.singleton start) } [0] := by
  have hcount : DetMap.count (mapAdd {} (.singleton start)) = 1 := rfl
  have hstates : DetState.states { map := mapAdd {} (.singleton start) } 0 = [start] := rfl
  have hzero : ∀ d < DetMap.count (mapAdd {} (.singleton start)), d = 0 := by
    omega
  have hnew : mapFind {} (.singleton start) = none :=
    DetMap.valid_init.interner.find_eq_none_iff.mpr not_mem_nil
  refine ⟨DetMap.valid_init.mapAdd hnew, AnalyzeClosuresEnv.valid_init nfa,
    InternedStateSetPool.valid_alloc, ?_, Nat.one_pos, hstates, ?_, ?_, nodup_singleton 0,
    ?_, ?_, ?_⟩
  · intro d iss hget
    have hmem : iss ∈ [InternedStateSetId.singleton start] := mem_of_getElem? hget
    rw [List.mem_singleton.mp hmem]
    exact trivial
  · intro d hd
    rw [hzero d hd]
    refine ⟨cons_ne_nil _ _, pairwise_singleton _ _, ?_⟩
    intro s hs
    rw [mem_singleton.mp hs]
    exact hnfa.start_lt hstart
  · intro d hd
    exact .inl (hzero d hd)
  · intro d hd
    rw [mem_singleton.mp hd]
    exact Nat.one_pos
  · intro d _ c e
    rw [edgesOf_mapAdd]
    exact hasEdge_null c e
  · intro d hd hnot
    exact absurd (mem_singleton.mpr (hzero d hd)) hnot

/-- The loop finds all DFA states. -/
theorem exists_detLoop (hnfa : nfa.Wf) (hstart : nfa.start = some start) :
    ∃ st, detLoop nfa 0 (2 ^ nfa.statecount) { map := mapAdd {} (.singleton start) } 0 = .ok st ∧
      DetInv nfa start st [] := by
  apply detLoop_spec hnfa (detInv_init hnfa hstart)
  show 2 ^ nfa.statecount + 0 + 1 ≤ 2 ^ nfa.statecount + 1
  omega

/-- What determinisation makes of an FSM without epsilon edges. -/
structure Determinised (g q : Fsm) : Prop where
  isDfa : q.IsDfa
  wf : q.Wf
  unmarked : q.Unmarked
  start : q.start = some 0
  language_eq : q.language = g.language
  endIdsAfter_eq : ∀ w, q.endIdsAfter w = g.endIdsAfter w
  eagerIdsAfter_eq : ∀ w, q.eagerIdsAfter w = g.eagerIdsAfter w
  reachable : ∀ d < q.statecount, q.Reachable d
  exists_active_iff : ∀ w, (∃ d, q.Active w d) ↔ ∃ s, g.Active w s
  active_inj : ∀ d e w v, q.Active w d → q.Active v e →
    (∀ s, g.Active w s ↔ g.Active v s) → d = e

theorem fsmDeterminise_of_no_eps {g : Fsm} (hg : g.Wf) (hstart : g.start = some start)
    (heps : ∀ s t, ¬ g.Eps s t) :
    ∃ st, detLoop g 0 (2 ^ g.statecount) { map := mapAdd {} (.singleton start) } 0 = .ok st ∧
      Determinised g (buildDfa g st) := by
  obtain ⟨st, hloop, h⟩ := exists_detLoop hg hstart
  have hb : Built g st (buildDfa g st) := buildDfa_spec h.map
  refine ⟨st, hloop, hb.isDfa h, hb.wf h, hb.unmarked, hb.start, hb.language_eq h hstart heps,
    hb.endIdsAfter_eq h hstart heps, hb.eagerIdsAfter_eq h hstart heps,
    fun d hd => hb.reachable h hd, fun w => ⟨?_, ?_⟩, ?_⟩
  · intro ⟨d, hd⟩
    have hlt := hb.statecount ▸ (hb.wf h).active_lt hd
    obtain ⟨s, hs⟩ := exists_mem_of_ne_nil _ (h.proper d hlt).nonempty
    exact ⟨s, (hb.mem_states_iff h hstart heps hd).mp hs⟩
  · intro ⟨s, hs⟩
    exact hb.exists_active h hstart heps hs
  intro d e w v hd he heq
  have hlt := hb.statecount ▸ (hb.wf h).active_lt hd
  have hlt' := hb.statecount ▸ (hb.wf h).active_lt he
  apply h.states_inj hlt hlt'
  intro s
  rw [hb.mem_states_iff h hstart heps hd, hb.mem_states_iff h hstart heps he]
  exact heq s

/-- **Determinisation.**  An FSM with a start state becomes a DFA for the same FSM without
epsilon edges. -/
theorem fsmDeterminise_spec (hf : f.Wf) (hstart : f.start.isSome = true) :
    ∃ g q, fsmDeterminise f = some q ∧ Determinised g q ∧
      ((g = f ∧ ∀ s t, ¬ f.Eps s t) ∨
        (Absorbed f g f.statecount ∧ ∀ s t, ¬ g.Eps s t)) := by
  -- once the epsilon edges are gone
  have hrest : ∀ {g : Fsm}, g.Wf → g.start.isSome = true → (∀ s t, ¬ g.Eps s t) →
      (if fsmHas f fsmHasepsilons then fsmRemoveEpsilons f else some f) = some g →
      ∃ q, fsmDeterminise f = some q ∧ Determinised g q := by
    intro g hg hgstart heps hcond
    obtain ⟨start, hgstart⟩ := Option.isSome_iff_exists.mp hgstart
    obtain ⟨st, hloop, hdet⟩ := fsmDeterminise_of_no_eps hg hgstart heps
    refine ⟨buildDfa g st, ?_, hdet⟩
    have hintern : internedStateSetInternSet internedStateSetPoolAlloc [start] =
        (.singleton start, internedStateSetPoolAlloc) := rfl
    have hget : fsmGetstart g = some start := hgstart
    unfold fsmDeterminise fsmDeterminiseWithConfig
    simp only [hcond, hget, hintern, hloop, ne_eq, not_true_eq_false, false_and, if_false]
  by_cases hhas : fsmHas f fsmHasepsilons = true
  · obtain ⟨g, hg, habs, heps, hwf⟩ := fsmRemoveEpsilons_spec hf hstart
    obtain ⟨q, hq, hdet⟩ := hrest hwf (habs.start ▸ hstart) heps ((if_pos hhas).trans hg)
    exact ⟨g, q, hq, hdet, .inr ⟨habs, heps⟩⟩
  · have heps : ∀ s t, ¬ f.Eps s t := by
      intro s t ht
      exact hhas (fsmHas_eq_true_iff.mpr ⟨s, ht.source_lt, fsmHasepsilons_eq_true_iff.mpr ⟨t, ht⟩⟩)
    obtain ⟨q, hq, hdet⟩ := hrest hf hstart heps (if_neg hhas)
    exact ⟨f, q, hq, hdet, .inl ⟨rfl, heps⟩⟩

/-- The facts about the result that do not depend on how it was made. -/
theorem fsmDeterminise_preserves (hf : f.Wf) (hstart : f.start.isSome = true) :
    ∃ q, fsmDeterminise f = some q ∧ q.IsDfa ∧ q.Wf ∧ q.Unmarked ∧ q.start = some 0 ∧
      q.language = f.language ∧ (∀ w, q.eagerIdsAfter w = f.eagerIdsAfter w) ∧
      ((∀ w, q.endIdsAfter w = f.endIdsAfter w) ↔ f.NoStaleEndIds) := by
  obtain ⟨g, q, hq, hdet, ⟨rfl, heps⟩ | ⟨habs, heps⟩⟩ := fsmDeterminise_spec hf hstart
  · exact ⟨q, hq, hdet.isDfa, hdet.wf, hdet.unmarked, hdet.start, hdet.language_eq,
      hdet.eagerIdsAfter_eq,
      iff_of_true hdet.endIdsAfter_eq (Fsm.noStaleEndIds_of_no_eps heps)⟩
  · refine ⟨q, hq, hdet.isDfa, hdet.wf, hdet.unmarked, hdet.start,
      hdet.language_eq.trans (habs.language_eq hf heps), fun w => ?_, ?_⟩
    · rw [hdet.eagerIdsAfter_eq, habs.eagerIdsAfter_eq hf heps]
    · rw [← habs.endIdsAfter_eq_iff hf heps]
      simp only [hdet.endIdsAfter_eq]

/-- Without a start state, determinisation fails if there are epsilon edges to remove, and
does nothing otherwise. -/
theorem fsmDeterminise_of_start_eq_none (hstart : f.start = none) :
    fsmDeterminise f = if fsmHas f fsmHasepsilons then none else some f := by
  have hget : fsmGetstart f = none := hstart
  unfold fsmDeterminise fsmDeterminiseWithConfig
  by_cases hhas : fsmHas f fsmHasepsilons = true
  · simp only [hhas, if_true, fsmRemoveEpsilons_eq_none hstart]
  · simp [hhas, hget]

/-! ## §5 Exactness -/

namespace Fsm

theorem endIdsAfter_eq_empty (hw : w ∉ f.language) : f.endIdsAfter w = ∅ := by
  apply Set.eq_empty_of_forall_notMem
  intro i ⟨s, hs, hend, _⟩
  exact hw (mem_language_iff.mpr ⟨s, hs, hend⟩)

/-- `q` is deterministic and shows for every word what `f` shows: acceptance, the end IDs
of an accepted word, and the eager outputs. -/
structure Exact (f q : Fsm) : Prop where
  dfa : q.IsDfa
  language : ∀ w, w ∈ q.language ↔ w ∈ f.language
  endIds : ∀ w, w ∈ f.language → q.endIdsAfter w = f.endIdsAfter w
  eagerIds : ∀ w, q.eagerIdsAfter w = f.eagerIdsAfter w

end Fsm

/-- The successor sets that `fsm_determinise` stores, in the order of `to_sets.buf`. -/
def Fsm.storedSets (f : Fsm) : List (List ℕ) :=
  match if fsmHas f fsmHasepsilons then fsmRemoveEpsilons f else some f with
  | none => []
  | some nfa =>
    match detLoop nfa 0 (2 ^ nfa.statecount)
      { map := mapAdd {} (.singleton (nfa.start.getD 0)) } 0 with
    | .error _ => []
    | .ok st => st.env.toSets.items

/-- The `uint32_t` offset that `save_to_set` hands out for the `i`-th set. -/
def toSetOffset (sets : List (List ℕ)) (i : ℕ) : ℕ := ((sets.map List.length).take i).sum % 2 ^ 32

/-- All sets together take no more room than a `uint32_t` can address. -/
def Fsm.OffsetsFit (f : Fsm) : Prop := f.storedSets.flatten.length ≤ 2 ^ 32

instance : DecidablePred Fsm.OffsetsFit := fun f =>
  inferInstanceAs (Decidable (f.storedSets.flatten.length ≤ 2 ^ 32))

/-- In a buffer that 32 bits can address, every set is found at its offset: the index that the
model keeps for a set and the offset that the code keeps name the same set. -/
theorem read_toSetOffset {sets : List (List ℕ)} (hfit : sets.flatten.length ≤ 2 ^ 32) {i : ℕ}
    (hi : i < sets.length) :
    (sets.flatten.drop (toSetOffset sets i)).take sets[i].length = sets[i] := by
  have hread := drop_take_succ_flatten_eq_getElem sets i hi
  have hnext : ((sets.map List.length).take (i + 1)).sum =
      ((sets.map List.length).take i).sum + sets[i].length := by
    rw [sum_take_succ _ i (by simpa using hi), getElem_map]
  rw [hnext, ← take_drop] at hread
  have hle : ((sets.map List.length).take (i + 1)).sum ≤ sets.flatten.length := by
    rw [length_flatten]
    exact List.Sublist.sum_le_sum (take_sublist _ _) fun _ _ => Nat.zero_le _
  unfold toSetOffset
  by_cases hempty : sets[i].length = 0
  · -- nothing is read, wherever the offset points
    rw [hempty, take_zero, length_eq_zero_iff.mp hempty]
  · rw [Nat.mod_eq_of_lt (by omega)]
    exact hread

/-- Determinisation is exact if and only if no end ID that was left on a state without an
end mark comes back when epsilon edges are removed.  This holds as long as the offsets of the
stored sets do not wrap, so that each of them is read back as it was stored. -/
theorem fsmDeterminise_exact_iff {f : Fsm} (hf : f.Wf) (hstart : f.start.isSome = true)
    (hfit : f.OffsetsFit) :
    (∀ (i : ℕ) (hi : i < f.storedSets.length),
      (f.storedSets.flatten.drop (toSetOffset f.storedSets i)).take f.storedSets[i].length =
        f.storedSets[i]) ∧
      ∃ q, fsmDeterminise f = some q ∧ (f.Exact q ↔ f.NoStaleEndIds) := by
  obtain ⟨q, hq, hdfa, -, -, -, hlang, heager, hends⟩ := fsmDeterminise_preserves hf hstart
  refine ⟨fun i hi => read_toSetOffset hfit hi, q, hq, ?_⟩
  rw [← hends]
  constructor
  · intro hexact w
    by_cases hw : w ∈ f.language
    · exact hexact.endIds w hw
    · rw [Fsm.endIdsAfter_eq_empty hw, Fsm.endIdsAfter_eq_empty (hlang ▸ hw)]
  · intro heq
    exact ⟨hdfa, fun w => by rw [hlang], fun w _ => heq w, heager⟩

/-- The empty word is accepted in state 1, which has no end IDs; the DFA shows an ID. -/
theorem fsmDeterminise_brings_back_endId :
    ∃ q, fsmDeterminise staleEndIdFsm = some q ∧ [] ∈ staleEndIdFsm.language ∧
      7 ∈ q.endIdsAfter [] ∧ staleEndIdFsm.endIdsAfter [] = ∅ := by
  have hrun : (fsmDeterminise staleEndIdFsm).map
      (fun q => (q.start, (q.state 0).isEnd, q.endidInfo.get 0)) = some (some 0, true, [7]) := by
    decide +kernel
  obtain ⟨q, hq, hval⟩ := Option.map_eq_some_iff.mp hrun
  simp only [Prod.mk.injEq] at hval
  obtain ⟨hstart, hend, hids⟩ := hval
  refine ⟨q, hq, ?_, ⟨0, .base hstart, hend, by rw [hids]; decide⟩, staleEndIdFsm_endIdsAfter []⟩
  have hstart : staleEndIdFsm.start = some 0 := rfl
  have heps : staleEndIdFsm.Eps 0 1 := by decide
  exact Fsm.mem_language_iff.mpr ⟨1, .eps (.base hstart) heps, by decide⟩

theorem fsmDeterminise_exact_iff_nextToLast :
    ∃ q, fsmDeterminise nextToLastFsm = some q ∧
      (nextToLastFsm.Exact q ↔ nextToLastFsm.NoStaleEndIds) :=
  (fsmDeterminise_exact_iff (Fsm.wf_of_wfCheck (by decide +kernel)) rfl (by decide +kernel)).2

end Libfsm
