import Mathlib.Data.Option.Basic
import Mathlib.Tactic

/-!
# Machines That Fetch Their Input

A program that is stepped through by a program counter and asks for one symbol of the input at
a time.  The input comes in buffers, and between two buffers the machine waits at the
instruction that asks for the next symbol.

- `Action`: what one instruction does
- `run`, `feed`: the machine on one buffer, and on one buffer after another
- `Jumps`: jumps without a fetch
- `foldlM_feed_map`: machines that step alike
- `Implements`: the machine walks through the states of an automaton
- `Implements.feed_iff`: such a machine ends well exactly on the words the automaton accepts,
  however the word is cut into buffers
-/

namespace Libfsm.Lib

variable {P P' E α D : Type*}

variable {fuel : List α → ℕ}

/-! ## §1 Running -/

/-- What one instruction does. -/
inductive Action (P E : Type*) where
  /-- Fetch the next symbol, and go on at `next`.  If the input ends here the verdict is `e`. -/
  | fetch (e : E) (next : P)
  /-- Stop with a verdict -/
  | stop (e : E)
  /-- Go on at `next` -/
  | goto (next : P)
  deriving DecidableEq, Repr

/-- The same action with other program counters. -/
def Action.map (f : P → P') : Action P E → Action P' E
  | fetch e next => fetch e (f next)
  | stop e => stop e
  | goto next => goto (f next)

/-- A machine between two buffers. -/
structure Session (P E : Type*) where
  pc : P
  /-- The verdict, if the machine has stopped -/
  state : Option E
  /-- The verdict if the input ends here -/
  fetchState : E
  deriving DecidableEq, Repr

/-- The verdict when the input has ended. -/
def Session.verdict (s : Session P E) : E := s.state.getD s.fetchState

variable {s : Session P E}

section Machine

variable (step : P → α → Option (Action P E))

/-- Run from `pc` until the buffer is used up or the machine stops, with the symbol `c` at hand.
There is no result if an instruction is missing or the fuel runs out; `fetchState` is what is
kept if the machine stops. -/
def run (fetchState : E) : ℕ → P → α → List α → Option (Session P E)
  | 0, _, _, _ => none
  | fuel + 1, pc, c, buf =>
    match step pc c with
    | none => none
    | some (.stop e) => some ⟨pc, some e, fetchState⟩
    | some (.goto next) => run fetchState fuel next c buf
    | some (.fetch e next) =>
      match buf with
      | [] => some ⟨pc, none, e⟩
      | c' :: buf' => run fetchState fuel next c' buf'

/-- One buffer. -/
def feed (fuel : List α → ℕ) (c₀ : α) (s : Session P E) (buf : List α) : Option (Session P E) :=
  match s.state with
  -- a machine that has stopped does not look at it
  | some _ => some s
  | none => run step s.fetchState (fuel buf) s.pc c₀ buf

/-- A machine that has stopped stays as it is. -/
theorem foldlM_feed_stopped (fuel : List α → ℕ) (c₀ : α) {e : E} (h : s.state = some e)
    (bufs : List (List α)) : bufs.foldlM (feed step fuel c₀) s = some s := by
  induction bufs with
  | nil => rfl
  | cons w bufs ih =>
    rw [List.foldlM_cons, show feed step fuel c₀ s w = some s by rw [feed, h]]
    exact ih

/-- `n` jumps lead from `p` to `q` while the symbol is `c`. -/
inductive Jumps (c : α) : ℕ → P → P → Prop where
  | refl (p : P) : Jumps c 0 p p
  | head {n : ℕ} {p p' q : P} : step p c = some (.goto p') → Jumps c n p' q → Jumps c (n + 1) p q

variable {step}

theorem Jumps.run_eq {c : α} {n : ℕ} {p q : P} (h : Jumps step c n p q) (fs : E) (fuel : ℕ)
    (buf : List α) : run step fs (n + fuel) p c buf = run step fs fuel q c buf := by
  induction h with
  | refl p => rw [zero_add]
  | head hstep _ ih =>
    rw [add_right_comm, run, hstep]
    exact ih

theorem Jumps.map {step' : P' → α → Option (Action P' E)} {f : P → P'}
    (hf : ∀ p c a, step p c = some a → step' (f p) c = some (a.map f)) {c : α} {n : ℕ} {p q : P}
    (h : Jumps step c n p q) : Jumps step' c n (f p) (f q) := by
  induction h with
  | refl p => exact .refl _
  | head hstep _ ih => exact .head (hf _ _ _ hstep) ih

/-- Where an action goes on. -/
def Action.next : Action P E → Option P
  | fetch _ q | goto q => some q
  | stop _ => none

/-- The same session with another program counter. -/
def Session.map (f : P → P') (s : Session P E) : Session P' E := ⟨f s.pc, s.state, s.fetchState⟩

section Map

variable {step' : P' → α → Option (Action P' E)} {f : P → P'} {I : P → Prop}
  (hstep : ∀ p, I p → ∀ c, step' (f p) c = (step p c).map (Action.map f))
  (hnext : ∀ p, I p → ∀ c a q, step p c = some a → a.next = some q → I q)
include hstep hnext

/-- Two machines that step alike run alike, as long as the program counters satisfy `I`. -/
theorem run_map (fs : E) (fuel : ℕ) {p : P} (hp : I p) (c : α) (buf : List α) :
    run step' fs fuel (f p) c buf = (run step fs fuel p c buf).map (Session.map f) ∧
      ∀ s, run step fs fuel p c buf = some s → I s.pc := by
  induction fuel generalizing p c buf with
  | zero => exact ⟨rfl, fun s hs => by cases hs⟩
  | succ fuel ih =>
    rw [run, run, hstep p hp c]
    cases ha : step p c with
    | none => exact ⟨rfl, fun s hs => by cases hs⟩
    | some a =>
      have hq := hnext p hp c a
      cases a with
      | stop e => exact ⟨rfl, fun s hs => Option.some.inj hs ▸ hp⟩
      | goto q => exact ih (hq q ha rfl) c buf
      | fetch e q =>
        cases buf with
        | nil => exact ⟨rfl, fun s hs => Option.some.inj hs ▸ hp⟩
        | cons c' buf => exact ih (hq q ha rfl) c' buf

/-- The same for one buffer after another. -/
theorem foldlM_feed_map (fuel : List α → ℕ) (c₀ : α) (bufs : List (List α)) {s : Session P E}
    (hs : I s.pc) : bufs.foldlM (feed step' fuel c₀) (s.map f) =
      (bufs.foldlM (feed step fuel c₀) s).map (Session.map f) := by
  induction bufs generalizing s with
  | nil => rfl
  | cons w bufs ih =>
    rw [List.foldlM_cons, List.foldlM_cons, feed, feed, show (s.map f).state = s.state from rfl]
    cases s.state with
    | some e => exact ih hs
    | none =>
      obtain ⟨hrun, hpc⟩ := run_map hstep hnext s.fetchState (fuel w) hs c₀ w
      simp only [Session.map, hrun]
      cases hr : run step s.fetchState (fuel w) s.pc c₀ w with
      | none => rfl
      | some s' => exact ih (hpc s' hr)

end Map

/-! ## §2 Automata -/

/-- The word leads from `d` to the state that is returned, if to any. -/
def walk (δ : D → α → Option D) (d : D) (w : List α) : Option D := w.foldlM δ d

@[simp] theorem walk_nil (δ : D → α → Option D) (d : D) : walk δ d [] = some d := rfl

@[simp] theorem walk_cons (δ : D → α → Option D) (d : D) (c : α) (w : List α) :
    walk δ d (c :: w) = (δ d c).bind fun d' => walk δ d' w := List.foldlM_cons

theorem walk_append (δ : D → α → Option D) (d : D) (v w : List α) :
    walk δ d (v ++ w) = (walk δ d v).bind fun d' => walk δ d' w := List.foldlM_append

/-- Where the machine is when the automaton has taken a step to `o`: it is about to stop with
the verdict `bad` if there is no next state, and otherwise at the entry of that state or, for a
state that is never left, about to stop with the verdict `good`. -/
def Arrives (step : P → α → Option (Action P E)) (known sink : D → Prop) (entry : D → P)
    (good bad : E) (c : α) (q : P) : Option D → Prop
  | none => step q c = some (.stop bad)
  | some t => known t ∧ q = entry t ∨ sink t ∧ step q c = some (.stop good)

/-- The machine walks through the states of an automaton, with at most `K` jumps for a symbol.
The states that are known have an entry.  A state that is accepting and never left need not
have one: the machine stops there. -/
structure Implements (step : P → α → Option (Action P E)) (K : ℕ) (δ : D → α → Option D)
    (accept : D → Bool) (known sink : D → Prop) (entry : D → P) (good bad : E) : Prop where
  sink_accept : ∀ {d}, sink d → accept d = true
  sink_step : ∀ {d}, sink d → ∀ c, δ d c = some d
  at_sink : ∀ {d}, known d → sink d → ∀ c, step (entry d) c = some (.stop good)
  at_state : ∀ {d}, known d → ¬ sink d → ∃ q,
    (∀ c, step (entry d) c = some (.fetch (if accept d then good else bad) q)) ∧
    ∀ c, ∃ n ≤ K, ∃ q', Jumps step c n q q' ∧ Arrives step known sink entry good bad c q' (δ d c)

/-- What a session says about the state of the automaton that the input so far leads to. -/
def Session.Tracks (s : Session P E) (accept : D → Bool) (known sink : D → Prop) (entry : D → P)
    (good bad : E) : Option D → Prop
  | none => s.state = some bad
  | some d => sink d ∧ s.state = some good ∨
      known d ∧ s.state = none ∧ s.pc = entry d ∧ s.fetchState = if accept d then good else bad

end Machine

section Implements

variable {step : P → α → Option (Action P E)} {K : ℕ} {δ : D → α → Option D}
  {accept : D → Bool} {known sink : D → Prop} {entry : D → P} {good bad : E}

namespace Implements

section

variable (h : Implements step K δ accept known sink entry good bad)
include h

/-- The automaton stays in a state that is never left. -/
theorem walk_sink {d : D} (hs : sink d) (w : List α) : walk δ d w = some d := by
  induction w with
  | nil => rfl
  | cons c w ih => rw [walk_cons, h.sink_step hs, Option.bind_some, ih]

/-- From the entry of a state, a buffer is run through and the session follows the automaton. -/
theorem run_entry (w : List α) :
    ∀ {d : D}, known d → ∀ (fs : E) (c₀ : α) {fuel : ℕ}, (w.length + 1) * (K + 1) ≤ fuel →
      ∃ s, run step fs fuel (entry d) c₀ w = some s ∧
        s.Tracks accept known sink entry good bad (walk δ d w) := by
  induction w with
  | nil =>
    intro d hd fs c₀ fuel hfuel
    obtain ⟨fuel, rfl⟩ : ∃ n, fuel = n + 1 :=
      Nat.exists_eq_succ_of_ne_zero (by rw [List.length_nil] at hfuel; omega)
    by_cases hs : sink d
    · exact ⟨_, by rw [run, h.at_sink hd hs], .inl ⟨hs, rfl⟩⟩
    · obtain ⟨q, hq, -⟩ := h.at_state hd hs
      exact ⟨_, by rw [run, hq], .inr ⟨hd, rfl, rfl, rfl⟩⟩
  | cons c w ih =>
    intro d hd fs c₀ fuel hfuel
    -- the symbol costs the fetch and at most `K` jumps
    rw [List.length_cons, Nat.succ_mul] at hfuel
    have hpos : 0 < (w.length + 1) * (K + 1) := Nat.mul_pos (Nat.succ_pos _) (Nat.succ_pos _)
    by_cases hs : sink d
    · obtain ⟨fuel, rfl⟩ : ∃ n, fuel = n + 1 := Nat.exists_eq_succ_of_ne_zero (by omega)
      rw [h.walk_sink hs]
      exact ⟨_, by rw [run, h.at_sink hd hs], .inl ⟨hs, rfl⟩⟩
    obtain ⟨q, hq, hnext⟩ := h.at_state hd hs
    obtain ⟨n, hn, q', hjumps, harr⟩ := hnext c
    obtain ⟨rest, rfl⟩ : ∃ rest, fuel = n + rest + 1 := ⟨fuel - n - 1, by omega⟩
    have hrun : run step fs (n + rest + 1) (entry d) c₀ (c :: w) = run step fs rest q' c w := by
      rw [run, hq]
      exact hjumps.run_eq fs rest w
    rw [hrun, walk_cons]
    have hrest : (w.length + 1) * (K + 1) ≤ rest := by omega
    obtain ⟨rest', rfl⟩ : ∃ n, rest = n + 1 := Nat.exists_eq_succ_of_ne_zero (by omega)
    cases hδ : δ d c with
    | none =>
      rw [hδ] at harr
      exact ⟨_, by rw [run, show step q' c = some (.stop bad) from harr], show _ = _ from rfl⟩
    | some t =>
      rw [hδ] at harr
      rw [Option.bind_some]
      rcases harr with ⟨ht, rfl⟩ | ⟨hsink, hstop⟩
      · exact ih ht fs c hrest
      · rw [h.walk_sink hsink]
        exact ⟨_, by rw [run, hstop], .inl ⟨hsink, rfl⟩⟩

/-- A session that follows the automaton still does after one more buffer. -/
theorem feed_tracks (hfuel : ∀ w, (w.length + 1) * (K + 1) ≤ fuel w) (c₀ : α) {o : Option D}
    (hs : s.Tracks accept known sink entry good bad o) (w : List α) :
    ∃ s', feed step fuel c₀ s w = some s' ∧
      s'.Tracks accept known sink entry good bad (o.bind fun d => walk δ d w) := by
  cases o with
  | none => exact ⟨s, by rw [feed, show s.state = some bad from hs], hs⟩
  | some d =>
    obtain ⟨hsink, hstate⟩ | ⟨hd, hstate, hpc, -⟩ := hs
    · refine ⟨s, by rw [feed, hstate], ?_⟩
      rw [Option.bind_some, h.walk_sink hsink]
      exact .inl ⟨hsink, hstate⟩
    · rw [feed, hstate, hpc]
      exact h.run_entry w hd _ c₀ (hfuel w)

/-- The verdict of a session that follows the automaton. -/
theorem verdict_eq_iff
    (hne : good ≠ bad) {o : Option D} (hs : s.Tracks accept known sink entry good bad o) :
    s.verdict = good ↔ o.any accept = true := by
  cases o with
  | none => simp [Session.verdict, show s.state = some bad from hs, hne.symm]
  | some d =>
    obtain ⟨hsink, hstate⟩ | ⟨-, hstate, -, hfetch⟩ := hs
    · simp [Session.verdict, hstate, h.sink_accept hsink]
    · cases hacc : accept d <;> simp [Session.verdict, hstate, hfetch, hacc, hne.symm]

/-- Buffers that follow the first one. -/
theorem foldlM_feed_tracks
    (hfuel : ∀ w, (w.length + 1) * (K + 1) ≤ fuel w) (c₀ : α) (bufs : List (List α)) :
    ∀ {s : Session P E} {o : Option D},
      s.Tracks accept known sink entry good bad o →
      ∃ s', bufs.foldlM (feed step fuel c₀) s = some s' ∧
        s'.Tracks accept known sink entry good bad (o.bind fun d => walk δ d bufs.flatten) := by
  induction bufs with
  | nil =>
    intro s o hs
    exact ⟨s, rfl, by simpa using hs⟩
  | cons w bufs ih =>
    intro s o hs
    obtain ⟨s₁, hfeed, hs₁⟩ := h.feed_tracks hfuel c₀ hs w
    obtain ⟨s₂, hrest, hs₂⟩ := ih hs₁
    refine ⟨s₂, by simp [hfeed, hrest], ?_⟩
    simpa only [List.flatten_cons, walk_append, Option.bind_assoc] using hs₂

/-- **Buffered matching.**  From a fresh session at the entry of `d`, at least one buffer gives
the verdict `good` exactly if the automaton accepts the buffers put together. -/
theorem feed_iff (hne : good ≠ bad)
    (hfuel : ∀ w, (w.length + 1) * (K + 1) ≤ fuel w) (c₀ : α) {d : D} (hd : known d) (fs : E)
    {bufs : List (List α)} (hbufs : bufs ≠ []) :
    ∃ s, bufs.foldlM (feed step fuel c₀) ⟨entry d, none, fs⟩ = some s ∧
      (s.verdict = good ↔ (walk δ d bufs.flatten).any accept = true) := by
  obtain ⟨w, bufs, rfl⟩ := List.exists_cons_of_ne_nil hbufs
  obtain ⟨s₁, hrun, hs₁⟩ := h.run_entry w hd fs c₀ (hfuel w)
  obtain ⟨s₂, hrest, hs₂⟩ := h.foldlM_feed_tracks hfuel c₀ bufs hs₁
  refine ⟨s₂, by simp [feed, hrun, hrest], ?_⟩
  rw [h.verdict_eq_iff hne hs₂, List.flatten_cons, walk_append]

/-- The same program with other program counters. -/
theorem map {step' : P' → α → Option (Action P' E)} {f : P → P'}
    (hf : ∀ p c a, step p c = some a → step' (f p) c = some (a.map f)) :
    Implements step' K δ accept known sink (f ∘ entry) good bad where
  sink_accept := h.sink_accept
  sink_step := h.sink_step
  at_sink hd hs c := hf _ _ _ (h.at_sink hd hs c)
  at_state hd hs := by
    obtain ⟨q, hq, hnext⟩ := h.at_state hd hs
    refine ⟨f q, fun c => hf _ _ _ (hq c), fun c => ?_⟩
    obtain ⟨n, hn, q', hjumps, harr⟩ := hnext c
    refine ⟨n, hn, f q', hjumps.map hf, ?_⟩
    generalize δ _ c = o at harr ⊢
    cases o with
    | none => exact hf _ _ _ harr
    | some t =>
      rcases harr with ⟨ht, rfl⟩ | ⟨hsink, hstop⟩
      · exact .inl ⟨ht, rfl⟩
      · exact .inr ⟨hsink, hf _ _ _ hstop⟩

end

end Implements

end Implements

end Libfsm.Lib
