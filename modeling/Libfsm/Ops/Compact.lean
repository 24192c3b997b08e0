import Libfsm.Fsm.Semantics

/-!
# Compaction

`fsm_compact_states` of `state.c`: drop the states a filter rejects, and renumber the rest
so that they are consecutive again.  Edges to dropped states go away, and the ID tables
follow the renumbering.

- `compactMapping`: the renumbering
- `fsmCompactStates`: the compaction
- `Renumbered`: an FSM is another one's image under a partial renumbering
- `fsmCompactStates_renumbered`: compaction is such an image
- `Renumbered.active_iff`: the active states, when no useful state is dropped
-/

namespace Libfsm

open Lib
open List hiding filter set nil cons

variable {filter : ℕ → Bool} {i n s t : ℕ} {mapping : List (Option ℕ)}

/-! ## §1 The Functions -/

/-- The loop that builds `mapping` over the first `n` states, with the count of states
kept. -/
def compactMapping (filter : ℕ → Bool) : ℕ → List (Option ℕ) × ℕ
  | 0 => ([], 0)
  | i + 1 =>
    let (mapping, kept) := compactMapping filter i
    if filter i then (mapping ++ [some kept], kept + 1) else (mapping ++ [none], kept)

def mappingCb (mapping : List (Option ℕ)) (id : ℕ) : Option ℕ := mapping.getD id none

/-- Whether the mapping renumbers or drops any state. -/
def mappingChanges (mapping : List (Option ℕ)) : Bool :=
  mapping.zipIdx.any fun e => e.1 != some e.2

/-- The rebuilding of an ID table under a mapping, which both tables share. -/
def IdTable.compact (m : IdTable) (mapping : List (Option ℕ)) : IdTable :=
  if mappingChanges mapping then
    m.entries.foldl
      (fun new e =>
        match mappingCb mapping e.1 with
        | none => new
        | some nstate => new.insert nstate e.2)
      ∅
  else m

def fsmEndidCompact (endidInfo : IdTable) (mapping : List (Option ℕ)) : IdTable :=
  endidInfo.compact mapping

def fsmEagerOutputCompact (eagerOutputInfo : IdTable) (mapping : List (Option ℕ)) : IdTable :=
  eagerOutputInfo.compact mapping

/-- The edges of a live state under the mapping. -/
def FsmState.compact (st : FsmState) (mapping : List (Option ℕ)) : FsmState :=
  { st with
    epsilons := stateSetCompact st.epsilons (mappingCb mapping)
    edges := match st.edges with
      | .null => .null
      | .array a => edgeSetCompact (.array a) (mappingCb mapping) }

/-- The endpoint accounting for the states that go away. -/
def clearDoomedEnds (f : Fsm) (mapping : List (Option ℕ)) : Fsm :=
  (range f.statecount).foldl
    (fun f i => if mappingCb mapping i = none then fsmSetend f i false else f) f

/-- `fsm_compact_states`: the FSM and the number of states removed. -/
def fsmCompactStates (f : Fsm) (filter : ℕ → Bool) : Fsm × ℕ :=
  let mapping := (compactMapping filter f.statecount).1
  let f := clearDoomedEnds f mapping
  let live := f.states.zipIdx.filter fun e => (mappingCb mapping e.2).isSome
  ({ f with
      states := live.map fun e => e.1.compact mapping
      endidInfo := fsmEndidCompact f.endidInfo mapping
      eagerOutputInfo := fsmEagerOutputCompact f.eagerOutputInfo mapping
      -- a doomed start state leaves none
      start := if live.length = 0 then none else (fsmGetstart f).bind (mappingCb mapping) },
    f.statecount - live.length)

/-! ## §2 The Mapping -/

/-- The number of states kept below `i`. -/
def keptBelow (filter : ℕ → Bool) (i : ℕ) : ℕ := (range i).countP filter

theorem keptBelow_succ (filter : ℕ → Bool) (i : ℕ) :
    keptBelow filter (i + 1) = keptBelow filter i + if filter i then 1 else 0 := by
  simp [keptBelow, range_succ, countP_cons]

theorem compactMapping_eq (filter : ℕ → Bool) (n : ℕ) :
    compactMapping filter n =
      ((range n).map fun i => if filter i then some (keptBelow filter i) else none,
        keptBelow filter n) := by
  induction n with
  | zero => rfl
  | succ n ih =>
    rw [compactMapping, ih, range_succ, keptBelow_succ]
    cases hn : filter n <;> simp [hn]

theorem mappingCb_compactMapping (filter : ℕ → Bool) (n i : ℕ) :
    mappingCb (compactMapping filter n).1 i =
      if i < n ∧ filter i = true then some (keptBelow filter i) else none := by
  rw [compactMapping_eq, mappingCb]
  rcases lt_or_ge i n with hi | hi
  · simp [hi]
  · simp [not_lt.mpr hi]

theorem keptBelow_lt {j : ℕ} (hij : i < j) (hi : filter i = true) :
    keptBelow filter i < keptBelow filter j := by
  induction j with
  | zero => cases hij
  | succ j ih =>
    rw [keptBelow_succ]
    rcases Nat.lt_succ_iff_lt_or_eq.mp hij with h | rfl
    · exact Nat.lt_add_right _ (ih h)
    · simp [hi]

theorem mappingCb_injective {j : ℕ} (hi : mappingCb (compactMapping filter n).1 i = some t)
    (hj : mappingCb (compactMapping filter n).1 j = some t) : i = j := by
  rw [mappingCb_compactMapping] at hi hj
  split at hi
  · split at hj
    · rename_i hi' hj'
      have heq : keptBelow filter i = keptBelow filter j :=
        (Option.some.inj hi).trans (Option.some.inj hj).symm
      rcases lt_trichotomy i j with h | h | h
      · exact absurd heq (keptBelow_lt h hi'.2).ne
      · exact h
      · exact absurd heq.symm (keptBelow_lt h hj'.2).ne
    · cases hj
  · cases hi

/-- Where a kept number ends up in the list of kept numbers. -/
theorem getElem?_filter_range (hi : i < n) (hf : filter i = true) :
    ((range n).filter filter)[keptBelow filter i]? = some i := by
  induction n with
  | zero => cases hi
  | succ n ih =>
    have hlen : ((range n).filter filter).length = keptBelow filter n :=
      countP_eq_length_filter.symm
    rw [range_succ, filter_append]
    rcases Nat.lt_succ_iff_lt_or_eq.mp hi with h | rfl
    · rw [getElem?_append_left (hlen ▸ keptBelow_lt h hf), ih h]
    · rw [getElem?_append_right hlen.le, hlen]
      simp [hf]

private theorem exists_keptBelow_eq (ht : t < keptBelow filter n) :
    ∃ i < n, filter i = true ∧ keptBelow filter i = t := by
  have hlen : t < ((range n).filter filter).length := by
    rw [← countP_eq_length_filter]
    exact ht
  have hmem := getElem_mem hlen
  set i := ((range n).filter filter)[t] with hi
  obtain ⟨hin, hfi⟩ := mem_filter.mp hmem
  have hin : i < n := mem_range.mp hin
  refine ⟨i, hin, hfi, ?_⟩
  have hget := getElem?_filter_range hin hfi
  obtain ⟨hlt, heq⟩ := List.getElem?_eq_some_iff.mp hget
  have hnodup : ((range n).filter filter).Nodup := nodup_range.filter _
  exact (hnodup.getElem_inj_iff).mp (heq.trans hi)

/-! ## §3 Images Under A Renumbering -/

/-- `q` is what is left of `f` when every state `s` is renumbered to `remap s` or
dropped. -/
structure Renumbered (f q : Fsm) (remap : ℕ → Option ℕ) : Prop where
  inj : ∀ {i j t}, remap i = some t → remap j = some t → i = j
  lt : ∀ {s t}, remap s = some t → s < f.statecount ∧ t < q.statecount
  onto : ∀ {t}, t < q.statecount → ∃ s, remap s = some t
  edge : ∀ {s t}, remap s = some t → ∀ c u,
    (q.Edge t c u ↔ ∃ s', f.Edge s c s' ∧ remap s' = some u)
  eps : ∀ {s t}, remap s = some t → ∀ u, (q.Eps t u ↔ ∃ s', f.Eps s s' ∧ remap s' = some u)
  isEnd : ∀ {s t}, remap s = some t → (q.IsEnd t ↔ f.IsEnd s)
  endids : ∀ {s t}, remap s = some t → q.endidInfo.get t = f.endidInfo.get s
  eager : ∀ {s t}, remap s = some t → q.eagerOutputInfo.get t = f.eagerOutputInfo.get s
  endids_below : q.endidInfo.Below q.statecount
  eager_below : q.eagerOutputInfo.Below q.statecount
  start : q.start = f.start.bind remap

namespace Renumbered

variable {f q : Fsm} {remap : ℕ → Option ℕ}

section

variable (h : Renumbered f q remap)
include h

theorem wf : q.Wf := by
  refine ⟨?_, ?_, ?_, h.endids_below, h.eager_below⟩
  · intro s hs
    rw [h.start] at hs
    obtain ⟨s', -, hs'⟩ := Option.bind_eq_some_iff.mp hs
    exact (h.lt hs').2
  · intro s c t ht
    obtain ⟨s', hs'⟩ := h.onto ht.source_lt
    obtain ⟨t', -, ht'⟩ := (h.edge hs' c t).mp ht
    exact (h.lt ht').2
  · intro s t ht
    obtain ⟨s', hs'⟩ := h.onto ht.source_lt
    obtain ⟨t', -, ht'⟩ := (h.eps hs' t).mp ht
    exact (h.lt ht').2

/-- An active state of the image is an active state of the FSM. -/
theorem active_of_active {w : List Byte} (ht : q.Active w t) :
    ∃ s, f.Active w s ∧ remap s = some t := by
  induction ht with
  | @base t hstart =>
    rw [Fsm.mem_toNfa_start, h.start] at hstart
    obtain ⟨s, hs, hst⟩ := Option.bind_eq_some_iff.mp hstart
    exact ⟨s, .base hs, hst⟩
  | @eps w t u _ hu ih =>
    obtain ⟨s, hs, hst⟩ := ih
    obtain ⟨s', hs', hu'⟩ := (h.eps hst u).mp hu
    exact ⟨s', .eps hs hs', hu'⟩
  | @symbol w c t u _ hu ih =>
    obtain ⟨s, hs, hst⟩ := ih
    obtain ⟨s', hs', hu'⟩ := (h.edge hst c u).mp hu
    exact ⟨s', .symbol hs hs', hu'⟩

/-- If whatever leads to a kept state is kept, the image has all the active states that are
kept. -/
theorem active_iff (hback : ∀ {w s s'} {o : Option Byte}, f.Active w s → s' ∈ f.toNfa.step s o →
      (remap s').isSome = true → (remap s).isSome = true)
    {w : List Byte} (hst : remap s = some t) : q.Active w t ↔ f.Active w s := by
  constructor
  · intro ht
    obtain ⟨s', hs', hst'⟩ := h.active_of_active ht
    exact h.inj hst' hst ▸ hs'
  · intro hs
    induction hs generalizing t with
    | base hstart =>
      refine .base ?_
      rw [Fsm.mem_toNfa_start] at hstart ⊢
      rw [h.start, hstart, Option.bind_some, hst]
    | @eps w s s' hs hstep ih =>
      have hkept := hback hs hstep (Option.isSome_iff_exists.mpr ⟨t, hst⟩)
      obtain ⟨u, hu⟩ := Option.isSome_iff_exists.mp hkept
      exact .eps (ih hu) ((h.eps hu t).mpr ⟨s', hstep, hst⟩)
    | @symbol w c s s' hs hstep ih =>
      have hkept := hback hs hstep (Option.isSome_iff_exists.mpr ⟨t, hst⟩)
      obtain ⟨u, hu⟩ := Option.isSome_iff_exists.mp hkept
      exact .symbol (ih hu) ((h.edge hu c t).mpr ⟨s', hstep, hst⟩)

theorem step_iff {u : ℕ} (hst : remap s = some t) :
    q.Step t u ↔ ∃ s', f.Step s s' ∧ remap s' = some u := by
  rw [Fsm.step_iff, h.eps hst]
  simp only [h.edge hst, Fsm.step_iff]
  constructor
  · intro hor
    rcases hor with ⟨s', hs', hu⟩ | ⟨c, s', hs', hu⟩
    · exact ⟨s', .inl hs', hu⟩
    · exact ⟨s', .inr ⟨c, hs'⟩, hu⟩
  · intro ⟨s', hs', hu⟩
    rcases hs' with hs' | ⟨c, hs'⟩
    · exact .inl ⟨s', hs', hu⟩
    · exact .inr ⟨c, s', hs', hu⟩

/-- The image may be taken of, or replaced by, an FSM that means the same. -/
theorem congr {f' q' : Fsm} (hf : f.Agrees f') (hq : q.Agrees q') : Renumbered f' q' remap where
  inj := h.inj
  lt hst := hf.statecount ▸ hq.statecount ▸ h.lt hst
  onto ht := h.onto (hq.statecount ▸ ht)
  edge hst c u := by
    rw [← hq.edge, h.edge hst]
    simp only [hf.edge]
  eps hst u := by
    rw [← hq.eps, h.eps hst]
    simp only [hf.eps]
  isEnd hst := by rw [← hq.isEnd, h.isEnd hst, hf.isEnd]
  endids hst := by rw [← hq.endids, h.endids hst, hf.endids]
  eager hst := by rw [← hq.eager, h.eager hst, hf.eager]
  endids_below t ht := by
    rw [← hq.endids]
    exact h.endids_below t (hq.statecount ▸ ht)
  eager_below t ht := by
    rw [← hq.eager]
    exact h.eager_below t (hq.statecount ▸ ht)
  start := by rw [← hq.start, h.start, hf.start]

/-- The image of a DFA is a DFA, if it has kept the start state or nothing at all. -/
theorem isDfa (hf : f.IsDfa) (hstart : 0 < q.statecount → q.start.isSome = true) : q.IsDfa := by
  refine Fsm.isDfa_iff.mpr ⟨hstart, ?_, ?_⟩
  · intro t u hu
    obtain ⟨s, hs⟩ := h.onto hu.source_lt
    obtain ⟨s', hs', -⟩ := (h.eps hs u).mp hu
    exact hf.not_eps s s' hs'
  · intro t c u v hu hv
    obtain ⟨s, hs⟩ := h.onto hu.source_lt
    obtain ⟨s₁, hs₁, hu'⟩ := (h.edge hs c u).mp hu
    obtain ⟨s₂, hs₂, hv'⟩ := (h.edge hs c v).mp hv
    have heq : s₁ = s₂ := hf.functional s c s₁ s₂ hs₁ hs₂
    rw [heq, hv'] at hu'
    exact (Option.some.inj hu').symm

end

end Renumbered

/-! ## §4 The Compaction -/

/-- Helper: rebuilding puts the IDs of `s` under its new number. -/
private theorem get_foldl_compact {remap : ℕ → Option ℕ}
    (hinj : ∀ {i j t}, remap i = some t → remap j = some t → i = j) (hst : remap s = some t)
    (l : List (Sigma fun _ : ℕ => List ℕ)) (hl : l.NodupKeys) (new : IdTable) :
    IdTable.get (l.foldl (fun new e => match remap e.1 with
      | none => new
      | some nstate => new.insert nstate e.2) new) t = (l.dlookup s).getD (new.get t) := by
  induction l generalizing new with
  | nil => rfl
  | cons e l ih =>
    obtain ⟨k, ids⟩ := e
    obtain ⟨hnot, hl'⟩ := nodupKeys_cons.mp hl
    rw [foldl_cons, ih hl']
    by_cases hk : k = s
    · subst hk
      have hnone : l.dlookup k = none := dlookup_eq_none.mpr hnot
      rw [hnone, dlookup_cons_eq]
      simp only [hst, Option.getD_none, Option.getD_some, IdTable.get_insert, if_true]
    · have hcons : (⟨k, ids⟩ :: l : List (Sigma fun _ : ℕ => List ℕ)).dlookup s =
          l.dlookup s := dlookup_cons_ne l ⟨k, ids⟩ (Ne.symm hk)
      rw [hcons]
      cases hr : remap k with
      | none => rfl
      | some u =>
        have htu : t ≠ u := fun h => hk (hinj hr (h ▸ hst))
        simp only [IdTable.get_insert, if_neg htu]

private theorem get_foldl_compact_of_forall_ne {remap : ℕ → Option ℕ}
    (hne : ∀ s, remap s ≠ some t) (l : List (Sigma fun _ : ℕ => List ℕ)) (new : IdTable) :
    IdTable.get (l.foldl (fun new e => match remap e.1 with
      | none => new
      | some nstate => new.insert nstate e.2) new) t = new.get t := by
  apply foldl_eq_of_step (IdTable.get · t)
  intro new e _
  cases hr : remap e.1 with
  | none => rfl
  | some u =>
    have htu : t ≠ u := fun h => hne e.1 (h ▸ hr)
    simp only [IdTable.get_insert, if_neg htu]

theorem mappingCb_of_not_changes (h : mappingChanges mapping = false) (hs : s < mapping.length) :
    mappingCb mapping s = some s := by
  have hall : ∀ e ∈ mapping.zipIdx, e.1 = some e.2 := by
    intro e he
    have hne : (e.1 != some e.2) = false := by
      simpa using any_eq_false.mp h e he
    simpa using hne
  have hmem : (mapping[s], s) ∈ mapping.zipIdx := by
    rw [mk_mem_zipIdx_iff_getElem?]
    exact getElem?_eq_getElem hs
  rw [mappingCb, getD_eq_getElem?_getD, getElem?_eq_getElem hs]
  exact hall _ hmem

/-- A compacted table has the IDs of each kept state under its new number. -/
theorem IdTable.get_compact {m : IdTable}
    (hinj : ∀ {i j t}, mappingCb mapping i = some t → mappingCb mapping j = some t → i = j)
    (hst : mappingCb mapping s = some t) : (m.compact mapping).get t = m.get s := by
  unfold IdTable.compact
  split
  · rw [get_foldl_compact hinj hst m.entries m.nodupKeys]
    rfl
  · rename_i h
    have hs : s < mapping.length := by
      by_contra hge
      rw [mappingCb, getD_eq_getElem?_getD, getElem?_eq_none (Nat.le_of_not_lt hge)] at hst
      cases hst
    have hself := mappingCb_of_not_changes (Bool.not_eq_true _ ▸ h) hs
    rw [hst] at hself
    rw [Option.some.inj hself]

/-- A compacted table has no IDs but those. -/
theorem IdTable.get_compact_of_forall_ne {m : IdTable} (hm : m.Below mapping.length)
    (hne : ∀ s, mappingCb mapping s ≠ some t) : (m.compact mapping).get t = [] := by
  unfold IdTable.compact
  split
  · rw [get_foldl_compact_of_forall_ne hne, IdTable.get_empty]
  · rename_i h
    apply hm
    by_contra hlt
    exact hne t (mappingCb_of_not_changes (Bool.not_eq_true _ ▸ h) (Nat.lt_of_not_le hlt))

/-- Clearing doomed end marks changes the doomed states only. -/
private theorem clearDoomedEnds_spec (f : Fsm) (mapping : List (Option ℕ)) :
    (clearDoomedEnds f mapping).statecount = f.statecount ∧
      (clearDoomedEnds f mapping).start = f.start ∧
      (clearDoomedEnds f mapping).endidInfo = f.endidInfo ∧
      (clearDoomedEnds f mapping).eagerOutputInfo = f.eagerOutputInfo ∧
      ∀ s, (mappingCb mapping s).isSome = true →
        (clearDoomedEnds f mapping).state s = f.state s := by
  unfold clearDoomedEnds
  induction range f.statecount using List.reverseRecOn with
  | nil => exact ⟨rfl, rfl, rfl, rfl, fun _ _ => rfl⟩
  | append_singleton l i ih =>
    rw [foldl_append, foldl_cons, foldl_nil]
    split
    · rename_i hi
      obtain ⟨h₁, h₂, h₃, h₄, h₅⟩ := ih
      rw [statecount_fsmSetend, start_fsmSetend, endidInfo_fsmSetend, eagerOutputInfo_fsmSetend]
      refine ⟨h₁, h₂, h₃, h₄, fun s hs => ?_⟩
      rw [state_fsmSetend, if_neg, h₅ s hs]
      rintro ⟨rfl, -⟩
      rw [hi] at hs
      cases hs
    · exact ih

private theorem zipIdx_states (f : Fsm) :
    f.states.zipIdx = (range f.statecount).map fun i => (f.state i, i) := by
  apply ext_getElem
  · simp [Fsm.statecount]
  · intro i hi _
    have hlt : i < f.states.length := by simpa using hi
    simp [Fsm.state_eq_getElem hlt]

theorem states_fsmCompactStates (f : Fsm) (filter : ℕ → Bool) :
    (fsmCompactStates f filter).1.states =
      ((range f.statecount).filter filter).map fun i =>
        (f.state i).compact (compactMapping filter f.statecount).1 := by
  set mapping := (compactMapping filter f.statecount).1 with hmapping
  obtain ⟨hcount, -, -, -, hstate⟩ := clearDoomedEnds_spec f mapping
  have hkept : ∀ i ∈ range f.statecount, (mappingCb mapping i).isSome = filter i := by
    intro i hi
    rw [mappingCb_compactMapping]
    cases hfi : filter i <;> simp [mem_range.mp hi]
  show ((clearDoomedEnds f mapping).states.zipIdx.filter fun e =>
    (mappingCb mapping e.2).isSome).map (fun e => e.1.compact mapping) = _
  rw [zipIdx_states, hcount, filter_map, map_map]
  have hfilter : (range f.statecount).filter
      ((fun e : FsmState × ℕ => (mappingCb mapping e.2).isSome) ∘
        fun i => ((clearDoomedEnds f mapping).state i, i)) =
      (range f.statecount).filter filter :=
    filter_congr fun i hi => hkept i hi
  rw [hfilter]
  apply map_congr_left
  intro i hi
  obtain ⟨hin, hfi⟩ := mem_filter.mp hi
  show ((clearDoomedEnds f mapping).state i).compact mapping = (f.state i).compact mapping
  rw [hstate i ((hkept i hin).trans hfi)]

theorem statecount_fsmCompactStates (f : Fsm) (filter : ℕ → Bool) :
    (fsmCompactStates f filter).1.statecount = keptBelow filter f.statecount := by
  rw [Fsm.statecount, states_fsmCompactStates, length_map, keptBelow, countP_eq_length_filter]

/-- The number returned is that of the states removed. -/
theorem snd_fsmCompactStates_add (f : Fsm) (filter : ℕ → Bool) :
    (fsmCompactStates f filter).2 + (fsmCompactStates f filter).1.statecount = f.statecount := by
  have hle : (fsmCompactStates f filter).1.statecount ≤ f.statecount := by
    rw [statecount_fsmCompactStates]
    exact countP_le_length.trans_eq length_range
  have hsnd : (fsmCompactStates f filter).2 =
      f.statecount - (fsmCompactStates f filter).1.statecount := by
    show (clearDoomedEnds f _).statecount - _ = _ - List.length (List.map _ _)
    rw [(clearDoomedEnds_spec f _).1, length_map]
  rw [hsnd, Nat.sub_add_cancel hle]

theorem mappingCb_lt {s' t' : ℕ} (ht : mappingCb (compactMapping filter n).1 s = some t)
    (ht' : mappingCb (compactMapping filter n).1 s' = some t') (hlt : s < s') : t < t' := by
  rw [mappingCb_compactMapping] at ht ht'
  split at ht
  · rename_i hs
    split at ht'
    · rw [← Option.some.inj ht, ← Option.some.inj ht']
      exact keptBelow_lt hlt hs.2
    · cases ht'
  · cases ht

/-- Each kept state is there under its new number. -/
theorem state_fsmCompactStates {f : Fsm}
    (hst : mappingCb (compactMapping filter f.statecount).1 s = some t) :
    (fsmCompactStates f filter).1.state t =
      (f.state s).compact (compactMapping filter f.statecount).1 := by
  rw [mappingCb_compactMapping] at hst
  split at hst
  · rename_i hs
    rw [← Option.some.inj hst, Fsm.state, states_fsmCompactStates,
      getD_eq_getElem?_getD, getElem?_map, getElem?_filter_range hs.1 hs.2,
      Option.map_some, Option.getD_some]
  · cases hst

theorem start_fsmCompactStates (f : Fsm) (filter : ℕ → Bool) :
    (fsmCompactStates f filter).1.start =
      f.start.bind (mappingCb (compactMapping filter f.statecount).1) := by
  set mapping := (compactMapping filter f.statecount).1 with hmapping
  have hcount : (fsmCompactStates f filter).1.statecount =
      ((clearDoomedEnds f mapping).states.zipIdx.filter fun e =>
        (mappingCb mapping e.2).isSome).length := by
    show (List.map _ _).length = _
    rw [length_map]
  have hstart : (fsmCompactStates f filter).1.start =
      if (fsmCompactStates f filter).1.statecount = 0 then none
      else f.start.bind (mappingCb mapping) := by
    rw [hcount, ← (clearDoomedEnds_spec f mapping).2.1]
    rfl
  rw [hstart]
  split
  · -- with no state left, the start state was not kept
    rename_i hzero
    rw [statecount_fsmCompactStates] at hzero
    cases hs : f.start with
    | none => rfl
    | some s =>
      rw [Option.bind_some, mappingCb_compactMapping, if_neg]
      intro ⟨hlt, hfs⟩
      have := keptBelow_lt hlt hfs
      omega
  · rfl

/-- **Compaction** is the image under its renumbering. -/
theorem fsmCompactStates_renumbered (f : Fsm) (filter : ℕ → Bool) (hf : f.Wf) :
    Renumbered f (fsmCompactStates f filter).1
      (mappingCb (compactMapping filter f.statecount).1) := by
  set mapping := (compactMapping filter f.statecount).1 with hmapping
  have hinj : ∀ {i j t}, mappingCb mapping i = some t → mappingCb mapping j = some t → i = j :=
    mappingCb_injective
  have hlt : ∀ {s t}, mappingCb mapping s = some t →
      s < f.statecount ∧ t < (fsmCompactStates f filter).1.statecount := by
    intro s t hst
    rw [mappingCb_compactMapping] at hst
    split at hst
    · rename_i hs
      rw [statecount_fsmCompactStates, ← Option.some.inj hst]
      exact ⟨hs.1, keptBelow_lt hs.1 hs.2⟩
    · cases hst
  have hout : ∀ t, (fsmCompactStates f filter).1.statecount ≤ t →
      ∀ s, mappingCb mapping s ≠ some t :=
    fun t ht s hst => absurd (hlt hst).2 (not_lt.mpr ht)
  have hlen : mapping.length = f.statecount := by
    rw [hmapping, compactMapping_eq, length_map, length_range]
  -- clearing end marks leaves the tables alone
  obtain ⟨-, -, hendid, heager, -⟩ := clearDoomedEnds_spec f mapping
  have hendids : (fsmCompactStates f filter).1.endidInfo = f.endidInfo.compact mapping :=
    congrArg (IdTable.compact · mapping) hendid
  have heagers : (fsmCompactStates f filter).1.eagerOutputInfo =
      f.eagerOutputInfo.compact mapping := congrArg (IdTable.compact · mapping) heager
  refine ⟨hinj, hlt, ?_, ?_, ?_, ?_, ?_, ?_, ?_, ?_, start_fsmCompactStates f filter⟩
  · intro t ht
    rw [statecount_fsmCompactStates] at ht
    obtain ⟨i, hi, hfi, hit⟩ := exists_keptBelow_eq ht
    exact ⟨i, by rw [mappingCb_compactMapping, if_pos ⟨hi, hfi⟩, hit]⟩
  · intro s t hst c u
    rw [Fsm.Edge, state_fsmCompactStates hst]
    unfold Fsm.Edge FsmState.compact
    cases (f.state s).edges with
    | null => simp
    | array a => rw [hasEdge_edgeSetCompact]
  · intro s t hst u
    rw [Fsm.Eps, state_fsmCompactStates hst]
    exact mem_stateSetCompact _ _ _
  · intro s t hst
    rw [Fsm.IsEnd, state_fsmCompactStates hst]
    rfl
  · intro s t hst
    rw [hendids, IdTable.get_compact hinj hst]
  · intro s t hst
    rw [heagers, IdTable.get_compact hinj hst]
  · intro t ht
    rw [hendids]
    exact IdTable.get_compact_of_forall_ne (hlen ▸ hf.endids_below) (hout t ht)
  · intro t ht
    rw [heagers]
    exact IdTable.get_compact_of_forall_ne (hlen ▸ hf.eager_below) (hout t ht)

end Libfsm
