import Libfsm.Fsm.Basic
import Libfsm.Lib.EpsilonAutomata

/-!
# What An FSM Means

The automaton an FSM record stands for, in Mathlib's terms, and what can be observed of
it: the words it accepts, the end IDs reported at acceptance, the eager output IDs met.

- `Fsm.toNfa`, `Fsm.language`: the automaton and its language
- `Fsm.Active`: the states active after a word
- `Fsm.endIdsAfter`, `Fsm.eagerIdsAfter`: the IDs reported after a word
- `Fsm.next`, `Fsm.runFrom`: the transition function of a DFA
- `Fsm.Reachable`, `Fsm.Live`: states that a run can get to, or can end from
- `Fsm.Agrees`: two FSMs that mean the same, state by state
-/

namespace Libfsm

open Lib

variable {f : Fsm} {s t : ℕ} {c : Byte} {w : List Byte}

namespace Fsm

/-! ## §1 The Automaton -/

/-- The automaton an FSM stands for. -/
def toNfa (f : Fsm) : εNFA Byte ℕ where
  step s o :=
    match o with
    | some c => {t | f.Edge s c t}
    | none => {t | f.Eps s t}
  start := {s | f.start = some s}
  accept := {s | f.IsEnd s}

@[simp] theorem mem_toNfa_step_some : t ∈ f.toNfa.step s (some c) ↔ f.Edge s c t := Iff.rfl

@[simp] theorem mem_toNfa_step_none : t ∈ f.toNfa.step s none ↔ f.Eps s t := Iff.rfl

@[simp] theorem mem_toNfa_start : s ∈ f.toNfa.start ↔ f.start = some s := Iff.rfl

@[simp] theorem mem_toNfa_accept : s ∈ f.toNfa.accept ↔ f.IsEnd s := Iff.rfl

theorem toNfa_start_eq (h : f.start = some s) : f.toNfa.start = {s} := by
  ext t
  rw [mem_toNfa_start, h, Option.some.injEq, Set.mem_singleton_iff, eq_comm]

theorem toNfa_start_eq_empty (h : f.start = none) : f.toNfa.start = ∅ := by
  ext t
  simp [h]

/-- The strings an FSM accepts.  Without a start state it accepts nothing. -/
def language (f : Fsm) : Language Byte := f.toNfa.accepts

/-- `s` is active after reading `w` from the start state. -/
def Active (f : Fsm) (w : List Byte) (s : ℕ) : Prop := Lib.Active f.toNfa f.toNfa.start w s

theorem mem_language_iff : w ∈ f.language ↔ ∃ s, f.Active w s ∧ f.IsEnd s := by
  rw [language, mem_accepts_iff_active]
  constructor
  · rintro ⟨s, hs, ha⟩
    exact ⟨s, ha, hs⟩
  · rintro ⟨s, ha, hs⟩
    exact ⟨s, hs, ha⟩

/-- The active states depend on the start state and the moves only. -/
theorem active_congr {g : Fsm} (hstart : g.start = f.start)
    (hedge : ∀ s c t, g.Edge s c t ↔ f.Edge s c t) (heps : ∀ s t, g.Eps s t ↔ f.Eps s t) :
    g.Active w s ↔ f.Active w s := by
  constructor
  · intro hs
    induction hs with
    | base hs => exact .base (hstart.symm.trans hs)
    | eps _ ht ih => exact .eps ih ((heps _ _).mp ht)
    | symbol _ ht ih => exact .symbol ih ((hedge _ _ _).mp ht)
  · intro hs
    induction hs with
    | base hs => exact .base (hstart.trans hs)
    | eps _ ht ih => exact .eps ih ((heps _ _).mpr ht)
    | symbol _ ht ih => exact .symbol ih ((hedge _ _ _).mpr ht)

/-- The end IDs of all end states active after `w`. -/
def endIdsAfter (f : Fsm) (w : List Byte) : Set ℕ :=
  {i | ∃ s, f.Active w s ∧ f.IsEnd s ∧ i ∈ f.endidInfo.get s}

/-- The eager output IDs of all states active after `w`. -/
def eagerIdsAfter (f : Fsm) (w : List Byte) : Set ℕ :=
  {i | ∃ s, f.Active w s ∧ i ∈ f.eagerOutputInfo.get s}

theorem not_active_of_start_eq_none (h : f.start = none) (w : List Byte) (s : ℕ) :
    ¬ f.Active w s := by
  intro ha
  unfold Active at ha
  rw [toNfa_start_eq_empty h] at ha
  induction ha with
  | base hs => exact hs
  | eps _ _ ih => exact ih
  | symbol _ _ ih => exact ih

theorem language_eq_zero_of_start_eq_none (h : f.start = none) : f.language = 0 := by
  ext w
  rw [mem_language_iff]
  constructor
  · rintro ⟨s, ha, -⟩
    exact absurd ha (not_active_of_start_eq_none h w s)
  · intro hw
    exact absurd hw (Language.notMem_zero w)

/-- The moves of a well-formed FSM stay among its states. -/
theorem Wf.step_lt (hf : f.Wf) {o : Option Byte} (h : t ∈ f.toNfa.step s o) : t < f.statecount := by
  cases o with
  | none => exact hf.eps_lt h
  | some c => exact hf.edge_lt h

theorem Wf.active_lt (hf : f.Wf) (h : f.Active w s) : s < f.statecount := by
  induction h with
  | base hs => exact hf.start_lt hs
  | eps _ ht _ => exact hf.step_lt ht
  | symbol _ ht _ => exact hf.step_lt ht

end Fsm

/-! ## §2 Deterministic FSMs -/

namespace Fsm

/-- Every state passes the DFA test. -/
def IsDfa (f : Fsm) : Prop := ∀ s < f.statecount, fsmIsdfa f s = true

instance (f : Fsm) : Decidable f.IsDfa :=
  inferInstanceAs (Decidable (∀ s < f.statecount, fsmIsdfa f s = true))

theorem isDfa_iff_fsmAll : f.IsDfa ↔ fsmAll f fsmIsdfa = true :=
  fsmAll_eq_true_iff.symm

/-- The destination of the first group with the symbol, in full width. -/
def next (f : Fsm) (s : ℕ) (c : Byte) : Option ℕ :=
  ((f.state s).edges.groups.find? fun g => g.has c).map EdgeGroup.toState

/-- The state reached from `s` along a word. -/
def runFrom (f : Fsm) (s : ℕ) (w : List Byte) : Option ℕ := Lib.runFrom f.next s w

theorem edge_of_next (h : f.next s c = some t) : f.Edge s c t := by
  obtain ⟨g, hg, rfl⟩ := Option.map_eq_some_iff.mp h
  have hc : g.has c = true := by simpa using List.find?_some hg
  exact ⟨g, List.mem_of_find?_eq_some hg, rfl, hc⟩

theorem exists_next_of_edge (h : f.Edge s c t) : ∃ t', f.next s c = some t' := by
  obtain ⟨g, hg, -, hc⟩ := h
  obtain ⟨g', hg'⟩ : ∃ g', (f.state s).edges.groups.find? (fun g => g.has c) = some g' :=
    Option.isSome_iff_exists.mp (List.find?_isSome.mpr ⟨g, hg, hc⟩)
  exact ⟨g'.toState, by rw [next, hg', Option.map_some]⟩

theorem IsDfa.functional (h : f.IsDfa) (s : ℕ) : (f.state s).edges.Functional := by
  rcases lt_or_ge s f.statecount with hs | hs
  · exact (fsmIsdfa_eq_true_iff.mp (h s hs)).2.2
  · intro c t t' ht
    rw [state_of_le hs] at ht
    exact absurd ht (hasEdge_null c t)

theorem IsDfa.not_eps (h : f.IsDfa) (s t : ℕ) : ¬ f.Eps s t := by
  intro he
  exact (fsmIsdfa_eq_true_iff.mp (h s he.source_lt)).2.1 t he

/-- The DFA test, in terms of the edges. -/
theorem isDfa_iff : f.IsDfa ↔ (0 < f.statecount → f.start.isSome = true) ∧
    (∀ s t, ¬ f.Eps s t) ∧ ∀ s c t t', f.Edge s c t → f.Edge s c t' → t = t' := by
  constructor
  · intro h
    exact ⟨fun hpos => (fsmIsdfa_eq_true_iff.mp (h 0 hpos)).1, h.not_eps, h.functional⟩
  · intro ⟨hstart, heps, hfun⟩ s hs
    exact fsmIsdfa_eq_true_iff.mpr ⟨hstart (Nat.zero_lt_of_lt hs), heps s, hfun s⟩

theorem IsDfa.next_eq_some_iff (h : f.IsDfa) : f.next s c = some t ↔ f.Edge s c t := by
  constructor
  · exact edge_of_next
  · intro ht
    obtain ⟨t', ht'⟩ := exists_next_of_edge ht
    rw [ht', h.functional s c t t' ht (edge_of_next ht')]

/-- A DFA's automaton moves as its transition function does. -/
theorem IsDfa.deterministic (h : f.IsDfa) :
    Deterministic f.toNfa Set.univ f.next where
  closed _ _ _ _ _ := Set.mem_univ _
  eps s _ := by
    ext t
    simpa using h.not_eps s t
  step s _ c t := h.next_eq_some_iff.symm

theorem IsDfa.active_iff (h : f.IsDfa) {s₀ : ℕ} (hs₀ : f.start = some s₀) :
    f.Active w s ↔ f.runFrom s₀ w = some s := by
  unfold Active
  rw [toNfa_start_eq hs₀]
  exact h.deterministic.active_iff (Set.mem_univ s₀)

theorem IsDfa.mem_language_iff (h : f.IsDfa) {s₀ : ℕ} (hs₀ : f.start = some s₀) :
    w ∈ f.language ↔ ∃ s, f.runFrom s₀ w = some s ∧ f.IsEnd s := by
  rw [Fsm.mem_language_iff]
  simp only [h.active_iff hs₀]

end Fsm

/-! ## §3 Moves And Paths -/

namespace Fsm

/-- There is an edge of either kind from `s` to `t`. -/
def Step (f : Fsm) (s t : ℕ) : Prop := ∃ o, t ∈ f.toNfa.step s o

theorem step_iff : f.Step s t ↔ f.Eps s t ∨ ∃ c, f.Edge s c t := by
  unfold Step
  rw [Option.exists]
  rfl

theorem Step.source_lt (h : f.Step s t) : s < f.statecount := by
  rcases step_iff.mp h with h | ⟨c, h⟩
  · exact Eps.source_lt h
  · exact h.source_lt

/-- `s` is active after some word. -/
def Reachable (f : Fsm) (s : ℕ) : Prop := ∃ w, f.Active w s

theorem Reachable.step (hs : f.Reachable s) (ht : f.Step s t) : f.Reachable t := by
  obtain ⟨w, hw⟩ := hs
  obtain ⟨o, ho⟩ := ht
  cases o with
  | none => exact ⟨w, .eps hw ho⟩
  | some c => exact ⟨w ++ [c], .symbol hw ho⟩

/-- Reachability, in terms of the moves from the start state. -/
theorem reachable_iff :
    f.Reachable s ↔ ∃ s₀, f.start = some s₀ ∧ Relation.ReflTransGen f.Step s₀ s := by
  constructor
  · intro ⟨w, hw⟩
    induction hw with
    | @base s hs => exact ⟨s, hs, .refl⟩
    | eps _ ht ih =>
      obtain ⟨s₀, hs₀, hpath⟩ := ih
      exact ⟨s₀, hs₀, hpath.tail ⟨none, ht⟩⟩
    | @symbol _ c _ _ _ ht ih =>
      obtain ⟨s₀, hs₀, hpath⟩ := ih
      exact ⟨s₀, hs₀, hpath.tail ⟨some c, ht⟩⟩
  · intro ⟨s₀, hs₀, hpath⟩
    induction hpath with
    | refl => exact ⟨[], .base hs₀⟩
    | tail _ ht ih => exact ih.step ht

/-- There is a path of `n` moves from `s` to an end state. -/
inductive EndPath (f : Fsm) : ℕ → ℕ → Prop
  | done {s : ℕ} : f.IsEnd s → EndPath f 0 s
  | step {n s t : ℕ} : f.Step s t → EndPath f n t → EndPath f (n + 1) s

/-- `s` has a path to an end state. -/
def Live (f : Fsm) (s : ℕ) : Prop := ∃ n, f.EndPath n s

/-- A language is empty when no reachable state is an end state. -/
theorem language_eq_zero_iff : f.language = 0 ↔ ∀ s, f.Reachable s → ¬ f.IsEnd s := by
  constructor
  · intro h s ⟨w, hw⟩ hend
    have hmem : w ∈ f.language := mem_language_iff.mpr ⟨s, hw, hend⟩
    rw [h] at hmem
    exact Language.notMem_zero w hmem
  · intro h
    ext w
    rw [mem_language_iff]
    refine iff_of_false ?_ (Language.notMem_zero w)
    intro ⟨s, hw, hend⟩
    exact h s ⟨w, hw⟩ hend

/-- Two FSMs that differ in nothing but the representation of their sets, the traversal
marks and the bookkeeping. -/
structure Agrees (f g : Fsm) : Prop where
  statecount : f.statecount = g.statecount
  start : f.start = g.start
  edge : ∀ s c t, f.Edge s c t ↔ g.Edge s c t
  eps : ∀ s t, f.Eps s t ↔ g.Eps s t
  isEnd : ∀ s, f.IsEnd s ↔ g.IsEnd s
  endids : ∀ s, f.endidInfo.get s = g.endidInfo.get s
  eager : ∀ s, f.eagerOutputInfo.get s = g.eagerOutputInfo.get s

namespace Agrees

variable {f g : Fsm}

theorem symm (h : Agrees f g) : Agrees g f where
  statecount := h.statecount.symm
  start := h.start.symm
  edge s c t := (h.edge s c t).symm
  eps s t := (h.eps s t).symm
  isEnd s := (h.isEnd s).symm
  endids s := (h.endids s).symm
  eager s := (h.eager s).symm

theorem toNfa_eq (h : Agrees f g) : f.toNfa = g.toNfa := by
  unfold toNfa
  congr 1
  · ext s o t
    cases o with
    | none => exact h.eps s t
    | some c => exact h.edge s c t
  · rw [h.start]
  · ext s
    exact h.isEnd s

theorem language_eq (h : Agrees f g) : f.language = g.language := by
  rw [language, h.toNfa_eq, language]

theorem wf (h : Agrees f g) (hf : f.Wf) : g.Wf where
  start_lt hs := h.statecount ▸ hf.start_lt (h.start.trans hs)
  edge_lt he := h.statecount ▸ hf.edge_lt ((h.edge _ _ _).mpr he)
  eps_lt he := h.statecount ▸ hf.eps_lt ((h.eps _ _).mpr he)
  endids_below s hs := (h.endids s).symm.trans (hf.endids_below s (h.statecount ▸ hs))
  eager_below s hs := (h.eager s).symm.trans (hf.eager_below s (h.statecount ▸ hs))

end Agrees

/-- No state carries a traversal mark. -/
def Unmarked (f : Fsm) : Prop := ∀ s < f.statecount, (f.state s).visited = false

instance (f : Fsm) : Decidable f.Unmarked :=
  inferInstanceAs (Decidable (∀ s < f.statecount, (f.state s).visited = false))

theorem Unmarked.visited_eq (h : f.Unmarked) (s : ℕ) : (f.state s).visited = false := by
  rcases lt_or_ge s f.statecount with hs | hs
  · exact h s hs
  · rw [state_of_le hs, FsmState.visited_fresh]

/-- Write the traversal marks of all states. -/
def setVisited (f : Fsm) (marks : ℕ → Bool) : Fsm :=
  f.modifyAll (List.range f.statecount) fun s st => { st with visited := marks s }

theorem state_setVisited {marks : ℕ → Bool} (hs : s < f.statecount) :
    (f.setVisited marks).state s = { f.state s with visited := marks s } := by
  rw [setVisited, state_modifyAll f List.nodup_range, if_pos ⟨List.mem_range.mpr hs, hs⟩]

/-- The marks are no part of what an FSM means. -/
theorem agrees_setVisited (f : Fsm) (marks : ℕ → Bool) : Agrees (f.setVisited marks) f := by
  have hstate : ∀ s, ∃ b, (f.setVisited marks).state s = { f.state s with visited := b } := by
    intro s
    rcases lt_or_ge s f.statecount with hs | hs
    · exact ⟨marks s, state_setVisited hs⟩
    · refine ⟨false, ?_⟩
      rw [state_of_le hs, state_of_le (by rw [setVisited, statecount_modifyAll]; exact hs)]
      rfl
  refine ⟨statecount_modifyAll _ _ _, start_modifyAll _ _ _, ?_, ?_, ?_, ?_, ?_⟩
  · intro s c t
    obtain ⟨b, hb⟩ := hstate s
    rw [Edge, hb, Edge]
  · intro s t
    obtain ⟨b, hb⟩ := hstate s
    rw [Eps, hb, Eps]
  · intro s
    obtain ⟨b, hb⟩ := hstate s
    rw [IsEnd, hb, IsEnd]
  · intro s
    rw [setVisited, endidInfo_modifyAll]
  · intro s
    rw [setVisited, eagerOutputInfo_modifyAll]

end Fsm

end Libfsm
