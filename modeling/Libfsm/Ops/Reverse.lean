import Libfsm.Lib.Reversal
import Libfsm.Ops.MergeStates

/-!
# Reversal

`fsm_reverse` turns all edges around.  The old start state becomes the end state.  A single old
end state becomes the start state; for several of them a new state is added, which is linked to
them by epsilon edges if there were epsilon edges, and else gets copies of their edges.

Two things are not as they look.  Destinations are read through `struct fsm_edge`, with 24 bits.
And an epsilon set counts as having edges if its pointer is not NULL, which an empty array is not.

- `fsmReverse`: the function
- `Fsm.readNfa`: an FSM with the ends of its edges renamed, as they are read
- `fsmReverse_spec`: the FSM that results
- `ReversedFrom.accepts`: its language
- `fsmReverse_reverses_iff`: when it reverses the language, is its own inverse,
  and adds no epsilon edges
-/

namespace Libfsm

open Lib Function
open List hiding prev set nil cons

variable {f f₁ g : Fsm} {prev s start : ℕ}

/-! ## §1 The Function -/

/-- The loop that collects the end states. -/
def endSet (f : Fsm) : StateSet :=
  (range f.statecount).foldl (fun set i => if fsmIsend f i then stateSetAdd set i else set) .null

/-- The arrays `edges` and `epsilons`, and `hasepsilons`. -/
structure Turned where
  edges : ℕ → EdgeSet := fun _ => .null
  epsilons : ℕ → StateSet := fun _ => .null
  hasepsilons : Bool := false

/-- The body of the loop that creates reversed edges. -/
def turnState (f : Fsm) (r : Turned) (i : ℕ) : Turned where
  hasepsilons := r.hasepsilons || decide ((f.state i).epsilons ≠ .null)
  epsilons := (f.state i).epsilons.toList.foldl
    (fun a se => update a se (stateSetAdd (a se) i)) r.epsilons
  edges := (edgeSetEdges (f.state i).edges).foldl
    (fun a e => update a e.state.toNat (edgeSetAdd (a e.state.toNat) e.symbol i)) r.edges

def turnStates (f : Fsm) : Turned := (range f.statecount).foldl (turnState f) {}

/-- The new start state gets epsilon edges to all states of a set. -/
def linkStart (start : ℕ) (a : ℕ → StateSet) (s : ℕ) : ℕ → StateSet :=
  if s = start then a else update a start (stateSetAdd (a start) s)

/-- The new start state gets copies of the edges of all states of a set; none if a copy reads
through a NULL pointer. -/
def copyStart (start : ℕ) (a : ℕ → EdgeSet) (s : ℕ) : Option (ℕ → EdgeSet) :=
  if s = start then some a
  else if a s = .null then some a
  else (edgeSetCopyTo (a start) (a s)).map fun edges => update a start edges

/-- The three ways to form the start state. -/
def formStart (endcount : ℕ) (endset : StateSet) (start : ℕ) (r : Turned) : Option Turned :=
  if endcount = 1 then some r
  else if r.hasepsilons then
    some { r with epsilons := endset.toList.foldl (linkStart start) r.epsilons }
  else (endset.toList.foldlM (copyStart start) r.edges).map fun edges => { r with edges := edges }

/-- The end marks: `end` only, and the start state if its closure has an end state. -/
def markEnds (f : Fsm) (endset : StateSet) (start fin : ℕ) (hasepsilons : Bool) : Fsm :=
  let f := if stateSetContains endset fin then f else fsmSetend f fin true
  let f := endset.toList.foldl (fun f s => if s = fin then f else fsmSetend f s false) f
  if 1 < stateSetCount endset ∧ hasepsilons = false ∧ endset.toList.any (fsmIsend f) then
    fsmSetend f start true
  else f

/-- The last loop: new edges and epsilon edges for all states. -/
def installEdges (f : Fsm) (E : ℕ → StateSet) (D : ℕ → EdgeSet) : Fsm :=
  f.modifyAll (range f.statecount) fun i st => { st with epsilons := E i, edges := D i }

/-- `fsm_reverse`, with a start state and end states. -/
def reverseFrom (f : Fsm) (prevstart : ℕ) : Option Fsm :=
  let endset := endSet f
  let (start, f) :=
    if f.endcount = 1 then (endset.toList.headD 0, f) else fsmAddstate f
  let f := fsmSetstart f start
  (formStart f.endcount endset start (turnStates f)).map fun r =>
    installEdges (markEnds f endset start prevstart r.hasepsilons) r.epsilons r.edges

/-- `fsm_reverse`; none if it reads through a NULL pointer.  It returns 1 whenever memory can be
had. -/
def fsmReverse (f : Fsm) : Option Fsm :=
  if f.endcount = 0 then some (fsmAddstate (fsmNewStatealloc 1)).2
  else
    match f.start with
    | none => some (fsmAddstate (fsmNewStatealloc 1)).2
    | some prevstart => reverseFrom f prevstart

/-! ## §2 The End States -/

theorem toList_endSet (f : Fsm) : (endSet f).toList = (range f.statecount).filter (fsmIsend f) := by
  have hfold : endSet f =
      ((range f.statecount).filter (fsmIsend f)).foldl stateSetAdd .null := by
    rw [foldl_filter]
    rfl
  rw [hfold]
  exact toList_foldl_stateSetAdd (pairwise_lt_range.filter _)

theorem mem_endSet : s ∈ (endSet f).toList ↔ f.IsEnd s := by
  rw [toList_endSet, mem_filter, mem_range]
  exact ⟨fun h => h.2, fun h => ⟨h.lt, h⟩⟩

theorem endSet_sorted (f : Fsm) : (endSet f).Sorted := by
  rw [StateSet.Sorted, toList_endSet]
  exact pairwise_lt_range.filter _

theorem length_endSet (f : Fsm) : (endSet f).toList.length = fsmCount f fsmIsend := by
  rw [toList_endSet, fsmCount, countP_eq_length_filter]

/-! ## §3 The Edges Turned Around -/

theorem mem_epsilons_turnState (f : Fsm) (r : Turned) (i s t : ℕ) :
    t ∈ (turnState f r i).epsilons s ↔ t ∈ r.epsilons s ∨ (t = i ∧ f.Eps t s) := by
  refine (foldl_or_iff (fun a : ℕ → StateSet => t ∈ a s) fun a se => ?_).trans
    (or_congr_right (b := ∃ se ∈ (f.state i).epsilons.toList, s = se ∧ t = i) ?_)
  · by_cases hs : s = se
    · rw [hs, update_self, mem_stateSetAdd]
      simp [or_comm]
    · simp [hs]
  · constructor
    · rintro ⟨_, hs, rfl, rfl⟩
      exact ⟨rfl, hs⟩
    · rintro ⟨rfl, hs⟩
      exact ⟨s, hs, rfl, rfl⟩

theorem hasEdge_edges_turnState (f : Fsm) (r : Turned) (i s : ℕ) (c : Byte) (t : ℕ) :
    ((turnState f r i).edges s).HasEdge c t ↔
      (r.edges s).HasEdge c t ∨ (t = i ∧ ∃ u, f.Edge t c u ∧ u % 2 ^ 24 = s) := by
  refine (foldl_or_iff (fun a : ℕ → EdgeSet => (a s).HasEdge c t) fun a e => ?_).trans
    (or_congr_right (b := ∃ e ∈ edgeSetEdges (f.state i).edges,
      e.state.toNat = s ∧ t = i ∧ c = e.symbol) ?_)
  · by_cases hs : s = e.state.toNat
    · rw [hs, update_self, hasEdge_edgeSetAdd]
      simp
    · simp [hs, Ne.symm hs]
  · constructor
    · rintro ⟨e, he, rfl, rfl, rfl⟩
      obtain ⟨u, hu, hstate⟩ := mem_edgeSetEdges.mp he
      exact ⟨rfl, u, hu, by rw [hstate, BitVec.toNat_ofNat]⟩
    · rintro ⟨rfl, u, hu, rfl⟩
      exact ⟨⟨BitVec.ofNat 24 u, c⟩, mem_edgeSetEdges.mpr ⟨u, hu, rfl⟩, BitVec.toNat_ofNat _ _, rfl,
        rfl⟩

/-- **All edges turned around**, as they are read. -/
theorem turnStates_spec (f : Fsm) :
    ((turnStates f).hasepsilons = true ↔ ∃ i < f.statecount, (f.state i).epsilons ≠ .null) ∧
      (∀ s t, t ∈ (turnStates f).epsilons s ↔ f.Eps t s) ∧
      ∀ s c t, ((turnStates f).edges s).HasEdge c t ↔ ∃ u, f.Edge t c u ∧ u % 2 ^ 24 = s := by
  refine ⟨?_, fun s t => ?_, fun s c t => ?_⟩
  · rw [turnStates, foldl_or_iff (fun r : Turned => r.hasepsilons = true) fun r i => by
      rw [turnState, Bool.or_eq_true, decide_eq_true_eq]]
    simp
  · rw [turnStates, foldl_or_iff (fun r : Turned => t ∈ r.epsilons s) fun r i =>
      mem_epsilons_turnState f r i s t, or_iff_right (notMem_null t)]
    simpa using Fsm.Eps.source_lt
  · rw [turnStates, foldl_or_iff (fun r : Turned => (r.edges s).HasEdge c t) fun r i =>
      hasEdge_edges_turnState f r i s c t, or_iff_right (hasEdge_null c t)]
    simpa using fun u hu _ => Fsm.Edge.source_lt hu

/-! ## §4 The Start State -/

theorem foldl_linkStart (start : ℕ) (l : List ℕ) (a : ℕ → StateSet) (s t : ℕ) :
    t ∈ l.foldl (linkStart start) a s ↔ t ∈ a s ∨ (s = start ∧ t ∈ l ∧ t ≠ start) := by
  refine (foldl_or_iff (fun a : ℕ → StateSet => t ∈ a s) fun a e => ?_).trans
    (or_congr_right (b := ∃ e ∈ l, s = start ∧ t = e ∧ t ≠ start) ?_)
  · unfold linkStart
    split
    · rename_i he
      simp [he]
    · rename_i he
      by_cases hs : s = start
      · rw [hs, update_self, mem_stateSetAdd, or_comm]
        refine or_congr_right ⟨fun h => ⟨rfl, h, h ▸ he⟩, fun h => h.2.1⟩
      · simp [hs]
  · constructor
    · rintro ⟨_, ht, hs, rfl, hne⟩
      exact ⟨hs, ht, hne⟩
    · rintro ⟨hs, ht, hne⟩
      exact ⟨t, ht, hs, rfl, hne⟩

/-- The copies are made without reading through a NULL pointer, and touch the start state only. -/
theorem foldlM_copyStart (start : ℕ) (l : List ℕ) (a : ℕ → EdgeSet) :
    ∃ a', l.foldlM (copyStart start) a = some a' ∧ (∀ s, s ≠ start → a' s = a s) ∧
      ∀ c t, (a' start).HasEdge c t ↔
        (a start).HasEdge c t ∨ ∃ s ∈ l, s ≠ start ∧ (a s).HasEdge c t := by
  induction l generalizing a with
  | nil => exact ⟨a, rfl, fun _ _ => rfl, by simp⟩
  | cons e l ih =>
    -- what one copy does
    obtain ⟨a₁, hstep, hother, hstart⟩ : ∃ a₁, copyStart start a e = some a₁ ∧
        (∀ s, s ≠ start → a₁ s = a s) ∧ ∀ c t, (a₁ start).HasEdge c t ↔
          (a start).HasEdge c t ∨ (e ≠ start ∧ (a e).HasEdge c t) := by
      unfold copyStart
      split
      · rename_i he
        exact ⟨a, rfl, fun _ _ => rfl, by simp [he]⟩
      · rename_i he
        split
        · rename_i hnull
          exact ⟨a, rfl, fun _ _ => rfl, by simp [hnull]⟩
        · rename_i hnull
          rcases edgeSetCopyTo_spec (a start) (a e) with ⟨-, -, hsrc⟩ | ⟨edges, hsome, -, hedges⟩
          · exact absurd hsrc hnull
          · refine ⟨update a start edges, by rw [hsome]; rfl,
              fun s hs => update_of_ne hs _ _, fun c t => ?_⟩
            rw [update_self, hedges, and_iff_right he]
    obtain ⟨a', hrest, hother', hstart'⟩ := ih a₁
    refine ⟨a', ?_, fun s hs => (hother' s hs).trans (hother s hs), fun c t => ?_⟩
    · rw [foldlM_cons, hstep]
      exact hrest
    · rw [hstart', hstart, or_assoc]
      refine or_congr Iff.rfl ?_
      simp only [mem_cons, exists_eq_or_imp]
      refine or_congr Iff.rfl (exists_congr fun s => and_congr_right fun _ => ?_)
      exact and_congr_right fun hs => by rw [hother s hs]

/-! ## §5 The End Marks -/

theorem countP_range_eq {p p' : ℕ → Bool} {n : ℕ} (hs : s < n) (h : ∀ i, i ≠ s → p i = p' i) :
    (range n).countP p + (if p' s then 1 else 0) =
      (range n).countP p' + if p s then 1 else 0 := by
  induction n with
  | zero => cases hs
  | succ n ih =>
    rw [range_succ, countP_append, countP_append, countP_singleton, countP_singleton]
    rcases lt_or_ge s n with hlt | hge
    · rw [h n (by omega)]
      omega
    · obtain rfl : n = s := by omega
      have hsame : (range n).countP p = (range n).countP p' := by
        apply countP_congr
        intro i hi
        rw [h i (by have := mem_range.mp hi; omega)]
      omega

theorem fsmIsend_fsmSetend (hs : s < f.statecount) (b : Bool) (t : ℕ) :
    fsmIsend (fsmSetend f s b) t = if t = s then b else fsmIsend f t := by
  rw [fsmIsend, state_fsmSetend]
  by_cases hts : t = s
  · rw [if_pos ⟨hts, hs⟩, if_pos hts]
  · rw [if_neg fun h => hts h.1, if_neg hts]
    rfl

/-- `endcount` stays the number of end states. -/
theorem endcount_fsmSetend (hs : s < f.statecount) (h : f.endcount = fsmCount f fsmIsend)
    (b : Bool) : (fsmSetend f s b).endcount = fsmCount (fsmSetend f s b) fsmIsend := by
  by_cases hsame : (f.state s).isEnd = b
  · rw [fsmSetend, if_pos hsame]
    exact h
  · have hcount := countP_range_eq hs fun i hi =>
      (fsmIsend_fsmSetend hs b i).trans (if_neg hi)
    rw [fsmIsend_fsmSetend hs] at hcount
    have hend : (fsmSetend f s b).endcount = if b then f.endcount + 1 else f.endcount - 1 := by
      rw [fsmSetend, if_neg hsame]
    have hold : f.endcount = (range f.statecount).countP (fsmIsend f) := h
    rw [hend, fsmCount, statecount_fsmSetend]
    have hmark : fsmIsend f s = !b := by
      exact Bool.eq_not.mpr hsame
    rw [hmark] at hcount
    cases b with
    | true =>
      simp only [Bool.not_true, Bool.false_eq_true, if_false, if_true] at hcount ⊢
      omega
    | false =>
      simp only [Bool.not_false, Bool.false_eq_true, if_false, if_true] at hcount ⊢
      omega

/-- What setting end marks leaves alone, with the count right. -/
structure Remarked (f g : Fsm) : Prop where
  statecount : g.statecount = f.statecount
  start : g.start = f.start
  endidInfo : g.endidInfo = f.endidInfo
  eagerOutputInfo : g.eagerOutputInfo = f.eagerOutputInfo
  endcount : f.endcount = fsmCount f fsmIsend → g.endcount = fsmCount g fsmIsend

theorem Remarked.refl (f : Fsm) : Remarked f f := ⟨rfl, rfl, rfl, rfl, id⟩

theorem Remarked.trans {h : Fsm} (hfg : Remarked f g) (hgh : Remarked g h) : Remarked f h where
  statecount := hgh.statecount.trans hfg.statecount
  start := hgh.start.trans hfg.start
  endidInfo := hgh.endidInfo.trans hfg.endidInfo
  eagerOutputInfo := hgh.eagerOutputInfo.trans hfg.eagerOutputInfo
  endcount := fun hf => hgh.endcount (hfg.endcount hf)

theorem remarked_fsmSetend (hs : s < f.statecount) (b : Bool) : Remarked f (fsmSetend f s b) where
  statecount := statecount_fsmSetend f s b
  start := start_fsmSetend f s b
  endidInfo := endidInfo_fsmSetend f s b
  eagerOutputInfo := eagerOutputInfo_fsmSetend f s b
  endcount hf := endcount_fsmSetend hs hf b

theorem foldl_fsmSetend_false (fin : ℕ) (l : List ℕ) (f : Fsm) (hl : ∀ s ∈ l, s < f.statecount) :
    Remarked f (l.foldl (fun f s => if s = fin then f else fsmSetend f s false) f) ∧
      ∀ t, fsmIsend (l.foldl (fun f s => if s = fin then f else fsmSetend f s false) f) t =
        if t ∈ l ∧ t ≠ fin then false else fsmIsend f t := by
  induction l generalizing f with
  | nil => exact ⟨Remarked.refl f, by simp⟩
  | cons s l ih =>
    rw [foldl_cons]
    obtain ⟨hs, hl⟩ := forall_mem_cons.mp hl
    split
    · rename_i hsfin
      obtain ⟨hrest, hmarks⟩ := ih f hl
      refine ⟨hrest, fun t => ?_⟩
      rw [hmarks t]
      congr 1
      rw [mem_cons, eq_iff_iff]
      constructor
      · exact fun h => ⟨.inr h.1, h.2⟩
      · rintro ⟨rfl | h, hne⟩
        · exact absurd hsfin hne
        · exact ⟨h, hne⟩
    · rename_i hsfin
      obtain ⟨hrest, hmarks⟩ := ih (fsmSetend f s false) (by simpa using hl)
      refine ⟨(remarked_fsmSetend hs false).trans hrest, fun t => ?_⟩
      rw [hmarks t, fsmIsend_fsmSetend hs]
      by_cases hts : t = s
      · subst hts
        simp [hsfin]
      · simp [hts]

/-- **The end marks**: the old start state only, and the new start state where that is needed. -/
theorem markEnds_spec {endset : StateSet} {fin : ℕ} (hasepsilons : Bool) (hsorted : endset.Sorted)
    (hmem : ∀ s, s ∈ endset.toList ↔ f.IsEnd s) (hfin : fin < f.statecount)
    (hstart : start < f.statecount) :
    Remarked f (markEnds f endset start fin hasepsilons) ∧
      ∀ t, (markEnds f endset start fin hasepsilons).IsEnd t ↔ t = fin ∨
        (t = start ∧ 1 < endset.toList.length ∧ hasepsilons = false ∧ f.IsEnd fin) := by
  -- the old start state is marked
  obtain ⟨f₁, hf₁, hremark₁, hmarks₁⟩ : ∃ f₁,
      (if stateSetContains endset fin then f else fsmSetend f fin true) = f₁ ∧ Remarked f f₁ ∧
        ∀ t, fsmIsend f₁ t = true ↔ f.IsEnd t ∨ t = fin := by
    refine ⟨_, rfl, ?_⟩
    split
    · rename_i hcontains
      have hend : f.IsEnd fin := (hmem fin).mp ((hsorted.contains_iff fin).mp hcontains)
      refine ⟨Remarked.refl f, fun t => ⟨.inl, ?_⟩⟩
      rintro (h | rfl)
      · exact h
      · exact hend
    · refine ⟨remarked_fsmSetend hfin true, fun t => ?_⟩
      rw [fsmIsend_fsmSetend hfin]
      by_cases ht : t = fin
      · simp [ht]
      · simp only [ht, if_false, or_false]
        rfl
  -- the marks of the other old end states are taken away
  obtain ⟨hremark₂, hmarks₂⟩ := foldl_fsmSetend_false fin endset.toList f₁ (by
    intro s hs
    rw [hremark₁.statecount]
    exact ((hmem s).mp hs).lt)
  generalize hf₂ : endset.toList.foldl
    (fun f s => if s = fin then f else fsmSetend f s false) f₁ = f₂ at hremark₂ hmarks₂
  have hend₂ : ∀ t, fsmIsend f₂ t = true ↔ t = fin := by
    intro t
    rw [hmarks₂ t]
    split
    · rename_i h
      exact iff_of_false Bool.false_ne_true h.2
    · rename_i h
      rw [hmarks₁, ← hmem]
      constructor
      · rintro (ht | ht)
        · by_contra hne
          exact h ⟨ht, hne⟩
        · exact ht
      · exact .inr
  have hany : endset.toList.any (fsmIsend f₂) = true ↔ f.IsEnd fin := by
    rw [any_eq_true, ← hmem]
    constructor
    · rintro ⟨s, hs, hend⟩
      exact (hend₂ s).mp hend ▸ hs
    · exact fun h => ⟨fin, h, (hend₂ fin).mpr rfl⟩
  have hmark : markEnds f endset start fin hasepsilons =
      if 1 < stateSetCount endset ∧ hasepsilons = false ∧ endset.toList.any (fsmIsend f₂) then
        fsmSetend f₂ start true else f₂ := by
    rw [← hf₂, ← hf₁]
    rfl
  have hstart₂ : start < f₂.statecount := by
    rw [hremark₂.statecount, hremark₁.statecount]
    exact hstart
  have hremark := hremark₁.trans hremark₂
  rw [hmark]
  split
  · rename_i h
    refine ⟨hremark.trans (remarked_fsmSetend hstart₂ true), fun t => ?_⟩
    show fsmIsend _ t = true ↔ _
    rw [fsmIsend_fsmSetend hstart₂]
    split
    · rename_i hts
      exact iff_of_true rfl (.inr ⟨hts, h.1, h.2.1, hany.mp h.2.2⟩)
    · rename_i hts
      rw [hend₂]
      exact ⟨.inl, fun h => h.resolve_right fun h => hts h.1⟩
  · rename_i h
    refine ⟨hremark, fun t => ?_⟩
    show fsmIsend f₂ t = true ↔ _
    rw [hend₂]
    refine ⟨.inl, fun h' => h'.resolve_right fun h' => h ⟨h'.2.1, h'.2.2.1, ?_⟩⟩
    exact hany.mpr h'.2.2.2

/-! ## §6 The FSM That Results -/

/-- Some epsilon set is not NULL. -/
def Fsm.HasEpsilonSets (f : Fsm) : Prop := ∃ i < f.statecount, (f.state i).epsilons ≠ .null

/-- An edge turned around, as it is read. -/
def Fsm.TurnedEdge (f : Fsm) (s : ℕ) (c : Byte) (t : ℕ) : Prop :=
  ∃ u, f.Edge t c u ∧ u % 2 ^ 24 = s

/-- `g` is `f` turned around, from its start state `prev`. -/
structure ReversedFrom (f g : Fsm) (prev : ℕ) : Prop where
  statecount : g.statecount = if f.endcount = 1 then f.statecount else f.statecount + 1
  start : ∃ q, g.start = some q ∧
    if f.endcount = 1 then ∀ s, f.IsEnd s ↔ s = q else q = f.statecount
  eps : ∀ s t, g.Eps s t ↔
    f.Eps t s ∨ (f.endcount ≠ 1 ∧ f.HasEpsilonSets ∧ s = f.statecount ∧ f.IsEnd t)
  edge : ∀ s c t, g.Edge s c t ↔ f.TurnedEdge s c t ∨
    (f.endcount ≠ 1 ∧ ¬ f.HasEpsilonSets ∧ s = f.statecount ∧ ∃ e, f.IsEnd e ∧ f.TurnedEdge e c t)
  isEnd : ∀ s, g.IsEnd s ↔
    s = prev ∨ (f.endcount ≠ 1 ∧ ¬ f.HasEpsilonSets ∧ s = f.statecount ∧ f.IsEnd prev)
  endcount : g.endcount = fsmCount g fsmIsend
  endidInfo : g.endidInfo = f.endidInfo
  eagerOutputInfo : g.eagerOutputInfo = f.eagerOutputInfo

section Install

variable {f : Fsm} {E : ℕ → StateSet} {D : ℕ → EdgeSet}

theorem state_installEdges (hs : s < f.statecount) :
    (installEdges f E D).state s = { f.state s with epsilons := E s, edges := D s } := by
  rw [installEdges, Fsm.state_modifyAll _ nodup_range, if_pos ⟨mem_range.mpr hs, hs⟩]

@[simp] theorem statecount_installEdges : (installEdges f E D).statecount = f.statecount := by
  simp [installEdges]

theorem fsmIsend_installEdges (s : ℕ) : fsmIsend (installEdges f E D) s = fsmIsend f s := by
  rcases lt_or_ge s f.statecount with hs | hs
  · rw [fsmIsend, state_installEdges hs]
    rfl
  · rw [fsmIsend, Fsm.state_of_le (by simpa using hs), fsmIsend, Fsm.state_of_le hs]

theorem endcount_modifyAll (f : Fsm) (l : List ℕ) (g : ℕ → FsmState → FsmState) :
    (f.modifyAll l g).endcount = f.endcount :=
  foldl_eq_of_step Fsm.endcount fun _ _ _ => rfl

theorem remarked_installEdges (f : Fsm) (E : ℕ → StateSet) (D : ℕ → EdgeSet) :
    Remarked f (installEdges f E D) where
  statecount := statecount_installEdges
  start := by simp [installEdges]
  endidInfo := by simp [installEdges]
  eagerOutputInfo := by simp [installEdges]
  endcount hf := by
    have hcount : fsmCount (installEdges f E D) fsmIsend = fsmCount f fsmIsend := by
      rw [fsmCount, statecount_installEdges]
      apply countP_congr
      intro i _
      rw [fsmIsend_installEdges]
    rw [hcount, ← hf]
    exact endcount_modifyAll _ _ _

/-- Edges of the FSM, if the array has nothing outside of it. -/
theorem eps_installEdges (hout : ∀ s, f.statecount ≤ s → ∀ t, t ∉ E s) (s t : ℕ) :
    (installEdges f E D).Eps s t ↔ t ∈ E s := by
  rcases lt_or_ge s f.statecount with hs | hs
  · rw [Fsm.Eps, state_installEdges hs]
  · exact iff_of_false (fun h => absurd h.source_lt (by simpa using hs)) (hout s hs t)

theorem edge_installEdges (hout : ∀ s, f.statecount ≤ s → ∀ c t, ¬ (D s).HasEdge c t) (s : ℕ)
    (c : Byte) (t : ℕ) : (installEdges f E D).Edge s c t ↔ (D s).HasEdge c t := by
  rcases lt_or_ge s f.statecount with hs | hs
  · rw [Fsm.Edge, state_installEdges hs]
  · exact iff_of_false (fun h => absurd h.source_lt (by simpa using hs)) (hout s hs c t)

end Install

/-- What `formStart` leaves. -/
structure StartFormed (f : Fsm) (r : Turned) : Prop where
  hasepsilons : r.hasepsilons = true ↔ f.HasEpsilonSets
  epsilons : ∀ s t, t ∈ r.epsilons s ↔
    f.Eps t s ∨ (f.endcount ≠ 1 ∧ f.HasEpsilonSets ∧ s = f.statecount ∧ f.IsEnd t)
  edges : ∀ s c t, (r.edges s).HasEdge c t ↔ f.TurnedEdge s c t ∨
    (f.endcount ≠ 1 ∧ ¬ f.HasEpsilonSets ∧ s = f.statecount ∧ ∃ e, f.IsEnd e ∧ f.TurnedEdge e c t)

section

variable (hstate : ∀ s, f₁.state s = f.state s) (hle : f.statecount ≤ f₁.statecount)
include hstate hle

theorem formStart_spec (hstart : f.endcount ≠ 1 → start = f.statecount) :
    ∃ r, formStart f.endcount (endSet f) start (turnStates f₁) = some r ∧ StartFormed f r := by
  obtain ⟨hhas, heps, hedge⟩ := turnStates_spec f₁
  have hhas : (turnStates f₁).hasepsilons = true ↔ f.HasEpsilonSets := by
    rw [hhas]
    simp only [hstate]
    constructor
    · rintro ⟨i, -, hi⟩
      refine ⟨i, ?_, hi⟩
      by_contra hge
      rw [Fsm.state_of_le (Nat.le_of_not_lt hge)] at hi
      exact hi rfl
    · rintro ⟨i, hlt, hi⟩
      exact ⟨i, hlt.trans_le hle, hi⟩
  have heps : ∀ s t, t ∈ (turnStates f₁).epsilons s ↔ f.Eps t s := by
    intro s t
    rw [heps, Fsm.Eps, Fsm.Eps, hstate]
  have hedge : ∀ s c t, ((turnStates f₁).edges s).HasEdge c t ↔ f.TurnedEdge s c t := by
    intro s c t
    rw [hedge]
    simp only [Fsm.Edge, hstate]
    rfl
  have hlt : ∀ {t}, f.IsEnd t → t ≠ f.statecount := fun h => h.lt.ne
  unfold formStart
  split
  · rename_i hone
    exact ⟨_, rfl, hhas, fun s t => by simp [heps, hone], fun s c t => by simp [hedge, hone]⟩
  · rename_i hmulti
    obtain rfl := hstart hmulti
    split
    -- the start state gets epsilon edges to the old end states
    · rename_i hsets
      have hsets' := hhas.mp hsets
      refine ⟨_, rfl, hhas, fun s t => ?_, fun s c t => ?_⟩
      · rw [foldl_linkStart, heps, mem_endSet]
        refine or_congr Iff.rfl ?_
        constructor
        · exact fun h => ⟨hmulti, hsets', h.1, h.2.1⟩
        · exact fun h => ⟨h.2.2.1, h.2.2.2, hlt h.2.2.2⟩
      · rw [hedge]
        simp [hsets']
    -- without epsilon edges it gets copies of their edges
    · rename_i hsets
      have hsets' : ¬ f.HasEpsilonSets := fun h => hsets (hhas.mpr h)
      obtain ⟨edges, hcopy, hother, hnew⟩ :=
        foldlM_copyStart f.statecount (endSet f).toList (turnStates f₁).edges
      refine ⟨{ turnStates f₁ with edges := edges }, by rw [hcopy]; rfl, hhas, fun s t => ?_,
        fun s c t => ?_⟩
      · rw [heps]
        simp [hsets']
      · by_cases hs : s = f.statecount
        · subst hs
          rw [hnew, hedge]
          refine or_congr Iff.rfl ?_
          constructor
          · rintro ⟨e, he, -, hturned⟩
            exact ⟨hmulti, hsets', rfl, e, mem_endSet.mp he, (hedge e c t).mp hturned⟩
          · rintro ⟨-, -, -, e, he, hturned⟩
            exact ⟨e, mem_endSet.mpr he, hlt he, (hedge e c t).mpr hturned⟩
        · show (edges s).HasEdge c t ↔ _
          rw [hother s hs, hedge]
          simp [hs]

/-- States that are added carry no end mark. -/
theorem fsmCount_of_state : fsmCount f₁ fsmIsend = fsmCount f fsmIsend := by
  obtain ⟨k, hk⟩ := Nat.exists_eq_add_of_le hle
  have hsame : ∀ s, fsmIsend f₁ s = fsmIsend f s := fun s => by rw [fsmIsend, hstate, fsmIsend]
  rw [fsmCount, hk, range_add, countP_append]
  have hzero : ((range k).map fun i => f.statecount + i).countP (fsmIsend f₁) = 0 := by
    rw [countP_eq_zero]
    intro s hs
    obtain ⟨i, -, rfl⟩ := mem_map.mp hs
    rw [hsame, fsmIsend, Fsm.state_of_le (Nat.le_add_right _ _)]
    exact Bool.false_ne_true
  rw [hzero]
  apply countP_congr
  intro s _
  rw [hsame]

end

/-- The last steps, once the start state is there. -/
theorem reversedFrom_of_started (f₁ : Fsm) (hwf : f.Wf) (hprev : f.start = some prev)
    (hcount : f.endcount = fsmCount f fsmIsend) (hpos : f.endcount ≠ 0)
    (hstate : ∀ s, f₁.state s = f.state s)
    (hn : f₁.statecount = if f.endcount = 1 then f.statecount else f.statecount + 1)
    (hend₁ : f₁.endcount = f.endcount)
    (htables : f₁.endidInfo = f.endidInfo ∧ f₁.eagerOutputInfo = f.eagerOutputInfo)
    (hstart₁ : f₁.start = some start)
    (hstart : if f.endcount = 1 then ∀ s, f.IsEnd s ↔ s = start else start = f.statecount) :
    ∃ r, formStart f.endcount (endSet f) start (turnStates f₁) = some r ∧
      ReversedFrom f (installEdges (markEnds f₁ (endSet f) start prev r.hasepsilons) r.epsilons
        r.edges) prev := by
  have hle : f.statecount ≤ f₁.statecount := by
    rw [hn]
    split
    · exact le_rfl
    · exact Nat.le_succ _
  -- with several end states the start state is the one that was added
  have hnew : f.endcount ≠ 1 → start = f.statecount := by
    intro hmulti
    rwa [if_neg hmulti] at hstart
  obtain ⟨r, hform, hr⟩ := formStart_spec hstate hle hnew
  refine ⟨r, hform, ?_⟩
  have hisEnd : ∀ s, f₁.IsEnd s ↔ f.IsEnd s := by
    intro s
    rw [Fsm.IsEnd, hstate]
    rfl
  have hstartlt : start < f₁.statecount := by
    rw [hn]
    split at hstart
    · rename_i hone
      rw [if_pos hone]
      exact ((hstart start).mpr rfl).lt
    · rename_i hmulti
      rw [if_neg hmulti, hstart]
      exact Nat.lt_succ_self _
  have hcount₁ : f₁.endcount = fsmCount f₁ fsmIsend := by
    rw [hend₁, hcount]
    exact (fsmCount_of_state hstate hle).symm
  -- the old end states lose their marks and the old start state gets one
  obtain ⟨hremark, hmarks⟩ := markEnds_spec r.hasepsilons (endSet_sorted f)
    (fun s => mem_endSet.trans (hisEnd s).symm) ((hwf.start_lt hprev).trans_le hle) hstartlt
  have hinstall := hremark.trans (remarked_installEdges _ r.epsilons r.edges)
  have hmore : (1 < (endSet f).toList.length) ↔ f.endcount ≠ 1 := by
    rw [length_endSet]
    omega
  refine ⟨hinstall.statecount.trans hn, ⟨start, hinstall.start.trans hstart₁, hstart⟩, ?_, ?_, ?_,
    hinstall.endcount hcount₁, hinstall.endidInfo.trans htables.1,
    hinstall.eagerOutputInfo.trans htables.2⟩
  · intro s t
    -- turned edges stay among the states, so that none is lost when they are installed
    rw [eps_installEdges, hr.epsilons]
    intro s hs t ht
    rw [hremark.statecount] at hs
    rcases (hr.epsilons s t).mp ht with heps | ⟨hmulti, -, rfl, -⟩
    · exact absurd (hwf.eps_lt heps) (not_lt.mpr (hle.trans hs))
    · rw [hn, if_neg hmulti] at hs
      exact absurd hs (Nat.not_succ_le_self _)
  · intro s c t
    rw [edge_installEdges, hr.edges]
    intro s hs c t ht
    rw [hremark.statecount] at hs
    rcases (hr.edges s c t).mp ht with ⟨u, hu, rfl⟩ | ⟨hmulti, -, rfl, -⟩
    · have hlt := (Nat.mod_le u (2 ^ 24)).trans_lt (hwf.edge_lt hu)
      exact absurd hlt (not_lt.mpr (hle.trans hs))
    · rw [hn, if_neg hmulti] at hs
      exact absurd hs (Nat.not_succ_le_self _)
  · intro s
    show fsmIsend _ s = true ↔ _
    rw [fsmIsend_installEdges]
    refine (hmarks s).trans (or_congr Iff.rfl ?_)
    have hno : r.hasepsilons = false ↔ ¬ f.HasEpsilonSets := by
      rw [← hr.hasepsilons, Bool.not_eq_true]
    rw [hmore, hno, hisEnd]
    constructor
    · rintro ⟨rfl, hmulti, hsets, hend⟩
      exact ⟨hmulti, hsets, hnew hmulti, hend⟩
    · rintro ⟨hmulti, hsets, rfl, hend⟩
      exact ⟨(hnew hmulti).symm, hmulti, hsets, hend⟩

theorem reverseFrom_eq
    (h : (if f.endcount = 1 then ((endSet f).toList.headD 0, f) else fsmAddstate f) = (start, f₁)) :
    reverseFrom f prev = (formStart f₁.endcount (endSet f) start
      (turnStates (fsmSetstart f₁ start))).map fun r =>
        installEdges (markEnds (fsmSetstart f₁ start) (endSet f) start prev r.hasepsilons)
          r.epsilons r.edges := by
  rw [reverseFrom, h]
  rfl

/-- **`fsm_reverse`** of an FSM with a start state and end states. -/
theorem fsmReverse_spec (hwf : f.Wf) (hprev : f.start = some prev)
    (hcount : f.endcount = fsmCount f fsmIsend) (hpos : f.endcount ≠ 0) :
    ∃ g, fsmReverse f = some g ∧ ReversedFrom f g prev := by
  rw [fsmReverse, if_neg hpos, hprev]
  dsimp only
  by_cases hone : f.endcount = 1
  · -- the one end state is the first of the set
    obtain ⟨q, hq⟩ : ∃ q, (endSet f).toList = [q] := by
      apply length_eq_one_iff.mp
      rw [length_endSet, ← hcount, hone]
    have hends : ∀ s, f.IsEnd s ↔ s = q := by
      intro s
      rw [← mem_endSet, hq, List.mem_singleton]
    obtain ⟨r, hform, hr⟩ := reversedFrom_of_started (fsmSetstart f q) hwf hprev hcount hpos
      (fun _ => rfl) (if_pos hone).symm rfl ⟨rfl, rfl⟩ rfl (by rw [if_pos hone]; exact hends)
    have hpick : (if f.endcount = 1 then ((endSet f).toList.headD 0, f) else fsmAddstate f) =
        (q, f) := by rw [if_pos hone, hq, headD_cons]
    rw [reverseFrom_eq hpick, hform]
    exact ⟨_, rfl, hr⟩
  · obtain ⟨r, hform, hr⟩ := reversedFrom_of_started
      (fsmSetstart (fsmAddstate f).2 f.statecount) hwf hprev hcount hpos
      (state_fsmAddstate f) ((statecount_fsmAddstate f).trans (if_neg hone).symm) rfl ⟨rfl, rfl⟩ rfl
      (by rw [if_neg hone])
    have hpick : (if f.endcount = 1 then ((endSet f).toList.headD 0, f) else fsmAddstate f) =
        (f.statecount, (fsmAddstate f).2) := by rw [if_neg hone]; rfl
    have hend : (fsmAddstate f).2.endcount = f.endcount := rfl
    rw [reverseFrom_eq hpick, hend, hform]
    exact ⟨_, rfl, hr⟩

theorem ReversedFrom.le_statecount (h : ReversedFrom f g prev) : f.statecount ≤ g.statecount := by
  rw [h.statecount]
  split
  · exact le_refl _
  · exact Nat.le_succ _

theorem ReversedFrom.wf (h : ReversedFrom f g prev) (hwf : f.Wf) : g.Wf where
  start_lt := by
    intro s hs
    obtain ⟨q, hq, hends⟩ := h.start
    obtain rfl : q = s := Option.some.inj (hq.symm.trans hs)
    rw [h.statecount]
    split_ifs at hends ⊢
    · exact ((hends q).mpr rfl).lt
    · omega
  edge_lt := by
    intro s c t hedge
    refine lt_of_lt_of_le ?_ h.le_statecount
    rcases (h.edge s c t).mp hedge with ⟨u, hu, -⟩ | ⟨-, -, -, e, -, u, hu, -⟩
    · exact hu.source_lt
    · exact hu.source_lt
  eps_lt := by
    intro s t heps
    refine lt_of_lt_of_le ?_ h.le_statecount
    rcases (h.eps s t).mp heps with hts | ⟨-, -, -, ht⟩
    · exact hts.source_lt
    · exact ht.lt
  endids_below := by
    intro s hs
    rw [h.endidInfo]
    exact hwf.endids_below s (h.le_statecount.trans hs)
  eager_below := by
    intro s hs
    rw [h.eagerOutputInfo]
    exact hwf.eager_below s (h.le_statecount.trans hs)

/-! ## §7 The Language -/

/-- An FSM with the ends of its labelled edges renamed: `p` for the sources, `q` for the
destinations. -/
def Fsm.readNfa (f : Fsm) (p q : ℕ → ℕ) : εNFA Byte ℕ where
  step s o :=
    match o with
    | some c => {t | ∃ s' t', f.Edge s' c t' ∧ p s' = s ∧ q t' = t}
    | none => {t | f.Eps s t}
  start := {s | f.start = some s}
  accept := {s | f.IsEnd s}

/-- A destination as `struct fsm_edge` holds it. -/
def narrow (s : ℕ) : ℕ := s % 2 ^ 24

/-- Where the ends of the edges keep their names. -/
theorem Fsm.readNfa_eq {p q : ℕ → ℕ} (h : ∀ s c t, f.Edge s c t → p s = s ∧ q t = t) :
    f.readNfa p q = f.toNfa := by
  have hstep : (f.readNfa p q).step = f.toNfa.step := by
    funext s o
    cases o with
    | none => rfl
    | some c =>
      ext t
      constructor
      · rintro ⟨s', t', hedge, rfl, rfl⟩
        rw [(h s' c t' hedge).1, (h s' c t' hedge).2]
        exact hedge
      · exact fun hedge => ⟨s, t, hedge, h s c t hedge⟩
  exact congrArg (fun step => εNFA.mk step {s | f.start = some s} {s | f.IsEnd s}) hstep

theorem Fsm.accepts_readNfa_id (f : Fsm) : (f.readNfa id id).accepts = f.language := by
  have hid : f.readNfa id id = f.toNfa := Fsm.readNfa_eq fun _ _ _ _ => ⟨rfl, rfl⟩
  rw [hid, Fsm.language]

section Accepts

variable {f g : Fsm} {prev : ℕ} {q : ℕ → ℕ}

theorem not_eps_of_not_hasEpsilonSets (h : ¬ f.HasEpsilonSets) (s t : ℕ) : ¬ f.Eps s t := by
  intro heps
  refine h ⟨s, heps.source_lt, fun hnull => ?_⟩
  rw [Fsm.Eps, hnull] at heps
  exact notMem_null t heps

/-- No edge comes from the number of the state that is added. -/
theorem not_turnedEdge_statecount (hwf : f.Wf) (c : Byte) (t : ℕ) :
    ¬ f.TurnedEdge f.statecount c t := by
  rintro ⟨u, hu, hmod⟩
  have hlt := hwf.edge_lt hu
  omega

section

variable (hs : f.endcount = 1 ∨ s ≠ f.statecount)
include hs

theorem not_added (P Q : Prop) : ¬ (f.endcount ≠ 1 ∧ P ∧ s = f.statecount ∧ Q) := by
  rintro ⟨hne, -, heq, -⟩
  rcases hs with hone | hs
  · exact hne hone
  · exact hs heq

variable (h : ReversedFrom f g prev)
include h

/-- The labelled moves of the old states are those of `f`, backwards. -/
theorem ReversedFrom.step_some (c : Byte) :
    (g.readNfa id q).step s (some c) = (reverseNfa (f.readNfa q narrow)).step s (some c) := by
  ext t
  constructor
  · rintro ⟨s', t', hedge, rfl, ht⟩
    obtain ⟨u, hu, hmod⟩ := ((h.edge _ c t').mp hedge).resolve_right (not_added hs _ _)
    exact ⟨t', u, hu, ht, hmod⟩
  · rintro ⟨t', u, hu, ht, hmod⟩
    exact ⟨s, t', (h.edge s c t').mpr (.inl ⟨u, hu, hmod⟩), rfl, ht⟩

theorem ReversedFrom.step_none :
    (g.readNfa id q).step s none = (reverseNfa (f.readNfa q narrow)).step s none := by
  ext t
  exact (h.eps s t).trans (or_iff_left (not_added hs _ _))

theorem ReversedFrom.accept_iff (hprev : f.start = some prev) : g.IsEnd s ↔ f.start = some s := by
  rw [h.isEnd, or_iff_left (not_added hs _ _), hprev, Option.some.injEq, eq_comm]

end

/-- The state that is added is a new start state. -/
theorem ReversedFrom.freshStart (h : ReversedFrom f g prev) (hprev : f.start = some prev)
    (hone : f.endcount ≠ 1) (hq : ∀ s, q s ≤ s) :
    FreshStart (reverseNfa (f.readNfa q narrow)) (g.readNfa id q) f.statecount where
  step_eq := by
    intro s hs o
    cases o with
    | none => exact ReversedFrom.step_none (.inr hs) h
    | some c => exact ReversedFrom.step_some (.inr hs) h c
  unused := by
    intro s o hmem
    cases o with
    | none => exact lt_irrefl _ (Fsm.Eps.source_lt hmem)
    | some c =>
      obtain ⟨s', t', hedge, hs', -⟩ := hmem
      have hlt := hedge.source_lt
      have hle := hq s'
      omega
  start_eq := by
    obtain ⟨n, hstart, hn⟩ := h.start
    rw [if_neg hone] at hn
    ext s
    show g.start = some s ↔ s = f.statecount
    rw [hstart, hn, Option.some.injEq, eq_comm]
  notMem_start := fun hend => lt_irrefl _ (Fsm.IsEnd.lt hend)
  accept_iff := fun _ hs => ReversedFrom.accept_iff (.inr hs) h hprev

section

variable (h : ReversedFrom f g prev) (hwf : f.Wf) (hprev : f.start = some prev)
include h hwf hprev

/-- **The language**, with the destinations read in any way that does not make them larger. -/
theorem ReversedFrom.accepts (hq : ∀ s, q s ≤ s) :
    (g.readNfa id q).accepts = (f.readNfa q narrow).accepts.reverse := by
  have hprevlt := hwf.start_lt hprev
  rw [← accepts_reverseNfa]
  by_cases hone : f.endcount = 1
  · -- the moves are turned around and that is all
    have hstep : (g.readNfa id q).step = (reverseNfa (f.readNfa q narrow)).step := by
      funext s o
      cases o with
      | none => exact ReversedFrom.step_none (.inl hone) h
      | some c => exact ReversedFrom.step_some (.inl hone) h c
    have hstart : (g.readNfa id q).start = (reverseNfa (f.readNfa q narrow)).start := by
      obtain ⟨n, hn, hends⟩ := h.start
      rw [if_pos hone] at hends
      ext s
      show g.start = some s ↔ f.IsEnd s
      rw [hends, hn, Option.some.injEq, eq_comm]
    have haccept : (g.readNfa id q).accept = (reverseNfa (f.readNfa q narrow)).accept :=
      Set.ext fun s => ReversedFrom.accept_iff (.inl hone) h hprev
    have hnfa : g.readNfa id q = reverseNfa (f.readNfa q narrow) := by
      rw [εNFA.mk.injEq]
      exact ⟨hstep, hstart, haccept⟩
    rw [hnfa]
  · have hfresh := h.freshStart hprev hone hq
    by_cases hsets : f.HasEpsilonSets
    · -- epsilon edges to all old end states
      apply hfresh.accepts_of_eps
      · ext t
        refine (h.eps f.statecount t).trans ⟨fun heps => ?_, fun ht => .inr ⟨hone, hsets, rfl, ht⟩⟩
        rcases heps with heps | ⟨-, -, -, ht⟩
        · exact absurd (hwf.eps_lt heps) (lt_irrefl _)
        · exact ht
      · intro c
        refine Set.eq_empty_of_forall_notMem ?_
        rintro t ⟨s', t', hedge, hs', -⟩
        obtain rfl : s' = f.statecount := hs'
        rcases (h.edge _ c t').mp hedge with hturned | ⟨-, hno, -⟩
        · exact not_turnedEdge_statecount hwf c t' hturned
        · exact hno hsets
      · intro hend
        rcases (h.isEnd f.statecount).mp hend with heq | ⟨-, hno, -⟩
        · omega
        · exact hno hsets
    · -- copies of the edges of all old end states
      have hnoeps := not_eps_of_not_hasEpsilonSets hsets
      apply hfresh.accepts_of_copy
      · exact fun s => Set.eq_empty_of_forall_notMem fun t => hnoeps t s
      · refine Set.eq_empty_of_forall_notMem fun t ht => ?_
        rcases (h.eps f.statecount t).mp ht with heps | ⟨-, hyes, -⟩
        · exact hnoeps t _ heps
        · exact hsets hyes
      · intro c
        ext t
        constructor
        · rintro ⟨s', t', hedge, hs', ht⟩
          obtain rfl : s' = f.statecount := hs'
          rcases (h.edge _ c t').mp hedge with hturned | ⟨-, -, -, e, he, u, hu, hmod⟩
          · exact absurd hturned (not_turnedEdge_statecount hwf c t')
          · exact ⟨e, he, t', u, hu, ht, hmod⟩
        · rintro ⟨e, he, t', u, hu, ht, hmod⟩
          exact ⟨f.statecount, t',
            (h.edge _ c t').mpr (.inr ⟨hone, hsets, rfl, e, he, u, hu, hmod⟩),
            rfl, ht⟩
      · refine (h.isEnd f.statecount).trans ⟨fun hend => ?_, ?_⟩
        · rcases hend with heq | ⟨-, -, -, hend⟩
          · omega
          · exact ⟨prev, hend, hprev⟩
        · rintro ⟨s, hs, hstart⟩
          cases hprev.symm.trans hstart
          exact .inr ⟨hone, hsets, rfl, hs⟩

theorem ReversedFrom.language : g.language = (f.readNfa id narrow).accepts.reverse := by
  rw [← g.accepts_readNfa_id]
  exact h.accepts hwf hprev fun _ => le_refl _

theorem ReversedFrom.endcount_ne_zero : g.endcount ≠ 0 := by
  have hlt := lt_of_lt_of_le (hwf.start_lt hprev) h.le_statecount
  have hend : fsmIsend g prev = true := (h.isEnd prev).mpr (.inl rfl)
  rw [h.endcount]
  exact (countP_pos_iff.mpr ⟨prev, mem_range.mpr hlt, hend⟩).ne'

/-- Reversed twice: both ends of every edge have been read through `struct fsm_edge`. -/
theorem ReversedFrom.twice :
    ∃ g₂, fsmReverse g = some g₂ ∧ g₂.language = (f.readNfa narrow narrow).accepts := by
  obtain ⟨start, hstart, -⟩ := h.start
  obtain ⟨g₂, hg₂, hrev⟩ := fsmReverse_spec (h.wf hwf) hstart h.endcount
    (h.endcount_ne_zero hwf hprev)
  have hnarrow : ∀ s, narrow s ≤ s := fun s => Nat.mod_le s _
  refine ⟨g₂, hg₂, ?_⟩
  rw [hrev.language (h.wf hwf) hstart, h.accepts hwf hprev hnarrow, Language.reverse_reverse]

end

/-- Epsilon edges where there were none come from a set that is empty and not NULL. -/
theorem ReversedFrom.eps_free_iff (h : ReversedFrom f g prev)
    (hcount : f.endcount = fsmCount f fsmIsend) (hpos : f.endcount ≠ 0)
    (hfree : ∀ s t, ¬ f.Eps s t) :
    (∀ s t, ¬ g.Eps s t) ↔ (f.endcount ≠ 1 → ¬ f.HasEpsilonSets) := by
  constructor
  · intro hg hone hsets
    rw [hcount] at hpos
    obtain ⟨e, -, he⟩ := countP_pos_iff.mp (pos_of_ne_zero hpos)
    exact hg f.statecount e ((h.eps _ e).mpr (.inr ⟨hone, hsets, rfl, he⟩))
  · intro hsets s t heps
    rcases (h.eps s t).mp heps with heps | ⟨hone, hyes, -⟩
    · exact hfree t s heps
    · exact hsets hone hyes

end Accepts

/-- `fsm_reverse` reverses the language, is its own inverse for it, and adds no epsilon edges to an
FSM without them. -/
def Reverses (f : Fsm) : Prop :=
  ∃ g, fsmReverse f = some g ∧ (∀ w, w ∈ g.language ↔ w.reverse ∈ f.language) ∧
    (∃ g₂, fsmReverse g = some g₂ ∧ g₂.language = f.language) ∧
    ((∀ s t, ¬ f.Eps s t) → ∀ s t, ¬ g.Eps s t)

/-- **When reversal reverses**: 24 bits of the destinations are enough for the language, read once
and read twice, and with no epsilon edges and several end states no epsilon set is allocated. -/
theorem fsmReverse_reverses_iff {f : Fsm} {prev : ℕ} (hwf : f.Wf) (hprev : f.start = some prev)
    (hcount : f.endcount = fsmCount f fsmIsend) (hpos : f.endcount ≠ 0) :
    Reverses f ↔ (f.readNfa id narrow).accepts = f.language ∧
      (f.readNfa narrow narrow).accepts = f.language ∧
      ((∀ s t, ¬ f.Eps s t) → f.endcount ≠ 1 → ¬ f.HasEpsilonSets) := by
  obtain ⟨g, hg, hrev⟩ := fsmReverse_spec hwf hprev hcount hpos
  obtain ⟨g₂, hg₂, htwice⟩ := hrev.twice hwf hprev
  have hlang := hrev.language hwf hprev
  have honce : (∀ w, w ∈ g.language ↔ w.reverse ∈ f.language) ↔
      (f.readNfa id narrow).accepts = f.language := by
    rw [hlang]
    constructor
    · intro h
      ext w
      have hw := h w.reverse
      rwa [Language.mem_reverse, reverse_reverse] at hw
    · intro h w
      rw [Language.mem_reverse, h]
  have hfree : ((∀ s t, ¬ f.Eps s t) → ∀ s t, ¬ g.Eps s t) ↔
      ((∀ s t, ¬ f.Eps s t) → f.endcount ≠ 1 → ¬ f.HasEpsilonSets) :=
    forall_congr' fun h => hrev.eps_free_iff hcount hpos h
  rw [← honce, ← hfree, ← htwice]
  constructor
  · rintro ⟨g', hg', h₁, ⟨g₂', hg₂', h₂⟩, h₃⟩
    cases hg.symm.trans hg'
    cases hg₂.symm.trans hg₂'
    exact ⟨h₁, h₂, h₃⟩
  · rintro ⟨h₁, h₂, h₃⟩
    exact ⟨g, hg, h₁, ⟨g₂, hg₂, h₂⟩, h₃⟩

/-- With at most 2^24 states every destination fits. -/
theorem Fsm.readNfa_of_statecount_le (hwf : f.Wf) (hn : f.statecount ≤ 2 ^ 24) {p q : ℕ → ℕ}
    (hp : p = id ∨ p = narrow) (hq : q = id ∨ q = narrow) : f.readNfa p q = f.toNfa := by
  have hfit : ∀ {r : ℕ → ℕ}, r = id ∨ r = narrow → ∀ s < f.statecount, r s = s := by
    rintro r (rfl | rfl) s hs
    · rfl
    · exact Nat.mod_eq_of_lt (hs.trans_le hn)
  exact Fsm.readNfa_eq fun s c t h => ⟨hfit hp s h.source_lt, hfit hq t (hwf.edge_lt h)⟩

/-- `a` to one end state and `b` to another one.  The epsilon set of the start state is a
parameter. -/
def forkFsm (epsilons : StateSet) : Fsm :=
  { states := [{ edges := edgeSetAdd (edgeSetAdd .null 97 1) 98 2, epsilons := epsilons },
      { isEnd := true }, { isEnd := true }],
    endcount := 2,
    start := some 0 }

/-- An epsilon set from which all states were removed again. -/
def emptiedSet : StateSet :=
  stateSetRemove (stateSetRemove (stateSetAdd (stateSetAdd .null 1) 2) 1) 2

/-- Such a set is empty and still allocated: reversal then adds epsilon edges. -/
theorem not_reverses_emptied :
    (forkFsm emptiedSet).Wf ∧ (∀ s t, ¬ (forkFsm emptiedSet).Eps s t) ∧
      ¬ Reverses (forkFsm emptiedSet) := by
  have hfree : ∀ s t, ¬ (forkFsm emptiedSet).Eps s t := by
    intro s t heps
    have hs : s < 3 := heps.source_lt
    have hnil : ∀ s < 3, ((forkFsm emptiedSet).state s).epsilons.toList = [] := by decide
    have hmem : t ∈ ((forkFsm emptiedSet).state s).epsilons.toList := heps
    rw [hnil s hs] at hmem
    exact not_mem_nil hmem
  refine ⟨Fsm.wf_of_wfCheck (by decide), hfree, ?_⟩
  rintro ⟨g, hg, -, -, hg'⟩
  -- the new state 3 is linked to the old end state 1
  have hlink : (fsmReverse (forkFsm emptiedSet)).map (fun g => decide (g.Eps 3 1)) = some true := by
    decide +kernel
  rw [hg] at hlink
  exact hg' hfree 3 1 (of_decide_eq_true (Option.some.inj hlink))

/-- Without the allocated set the same FSM is reversed as it should be. -/
theorem fsmReverse_reverses_iff_fork : Reverses (forkFsm .null) := by
  have hwf : (forkFsm .null).Wf := Fsm.wf_of_wfCheck (by decide)
  have hn : (forkFsm .null).statecount ≤ 2 ^ 24 := by
    show 3 ≤ 2 ^ 24
    omega
  have hstart : (forkFsm .null).start = some 0 := rfl
  refine (fsmReverse_reverses_iff hwf hstart (by decide) (by decide)).mpr ⟨?_, ?_, ?_⟩
  · rw [Fsm.readNfa_of_statecount_le hwf hn (.inl rfl) (.inr rfl), Fsm.language]
  · rw [Fsm.readNfa_of_statecount_le hwf hn (.inr rfl) (.inr rfl), Fsm.language]
  · intro _ _
    show ¬ ∃ i < (forkFsm .null).statecount, ((forkFsm .null).state i).epsilons ≠ .null
    decide

end Libfsm
