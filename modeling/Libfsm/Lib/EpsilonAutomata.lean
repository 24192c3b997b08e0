import Mathlib.Computability.EpsilonNFA
import Mathlib.Tactic

/-!
# Reasoning About Automata With Epsilon Moves

Rules for Mathlib's `εNFA` that do not depend on where an automaton comes from.

- `Active`: the states active after a word, as an inductive relation, so that facts about
  all words are inductions with three cases
- `Embeds`: one automaton sits inside another, unchanged
- `Bridged`: two automata sit inside a third, joined by one epsilon move
- `Deterministic`: partial transition functions and the state reached by a word
- `Realises`: an automaton whose states stand for the values of a partial transition
  function
- `subsetStep`: the transition function on sets of states
- `absorb`: a transition function that stops at the first hit
-/

namespace Libfsm.Lib

open Option
open List hiding nil cons

universe u v w

variable {α : Type u} {σ : Type v} {τ : Type w}

/-! ## §1 Active States -/

/-- `Active M S x s`: starting from `S`, the state `s` is active after reading `x`. -/
inductive Active (M : εNFA α σ) (S : Set σ) : List α → σ → Prop where
  /-- A state we start from is active -/
  | base {s : σ} : s ∈ S → Active M S [] s
  /-- An epsilon move reads nothing -/
  | eps {x : List α} {s t : σ} : Active M S x s → t ∈ M.step s none → Active M S x t
  /-- A labelled move reads one symbol -/
  | symbol {x : List α} {a : α} {s t : σ} :
      Active M S x s → t ∈ M.step s (some a) → Active M S (x ++ [a]) t

variable {M : εNFA α σ} {N : εNFA α τ} {S T P : Set σ} {x : List α} {s t : σ} {φ : σ → τ}

/-- Helper: closing an active set keeps it active. -/
private theorem Active.closure (hT : ∀ t ∈ T, Active M S x t) (hs : s ∈ M.εClosure T) :
    Active M S x s := by
  induction hs with
  | base s hs => exact hT s hs
  | step s t ht _ ih => exact Active.eps ih ht

/-- Helper: evaluation is closed under epsilon moves. -/
private theorem evalFrom_eps (hs : s ∈ M.evalFrom S x) (ht : t ∈ M.step s none) :
    t ∈ M.evalFrom S x := by
  induction x using List.reverseRecOn with
  | nil =>
    exact εNFA.εClosure.step s t ht hs
  | append_singleton x a _ =>
    rw [εNFA.evalFrom_append_singleton, εNFA.mem_stepSet_iff] at hs ⊢
    obtain ⟨r, hr, hs⟩ := hs
    exact ⟨r, hr, εNFA.εClosure.step s t ht hs⟩

/-- The inductive relation is evaluation in Mathlib's sense. -/
theorem mem_evalFrom_iff_active : s ∈ M.evalFrom S x ↔ Active M S x s := by
  constructor
  · intro hs
    induction x using List.reverseRecOn generalizing s with
    | nil =>
      exact Active.closure (fun t ht => Active.base ht) hs
    | append_singleton x a ih =>
      rw [εNFA.evalFrom_append_singleton, εNFA.mem_stepSet_iff] at hs
      obtain ⟨r, hr, hs⟩ := hs
      exact Active.closure (fun t ht => Active.symbol (ih hr) ht) hs
  · intro hs
    induction hs with
    | base hs =>
      exact M.subset_εClosure S hs
    | eps _ ht ih => exact evalFrom_eps ih ht
    | @symbol x a s t _ ht ih =>
      rw [εNFA.evalFrom_append_singleton, εNFA.mem_stepSet_iff]
      exact ⟨s, ih, M.subset_εClosure _ ht⟩

theorem mem_accepts_iff_active : x ∈ M.accepts ↔ ∃ s ∈ M.accept, Active M M.start x s := by
  constructor
  · rintro ⟨s, hs, hx⟩
    exact ⟨s, hs, mem_evalFrom_iff_active.mp hx⟩
  · rintro ⟨s, hs, hx⟩
    exact ⟨s, hs, mem_evalFrom_iff_active.mpr hx⟩

/-- More starting states, more active states. -/
theorem Active.mono (h : S ⊆ T) (hs : Active M S x s) : Active M T x s := by
  induction hs with
  | base hs => exact Active.base (h hs)
  | eps _ ht ih => exact Active.eps ih ht
  | symbol _ ht ih => exact Active.symbol ih ht

/-- Active states stay in a part that no move leaves. -/
theorem Active.mem_of_closed (hclosed : ∀ s ∈ P, ∀ o t, t ∈ M.step s o → t ∈ P) (hS : S ⊆ P)
    (hs : Active M S x s) : s ∈ P := by
  induction hs with
  | base hs => exact hS hs
  | eps _ ht ih => exact hclosed _ ih _ _ ht
  | symbol _ ht ih => exact hclosed _ ih _ _ ht

/-- A map that takes the moves of such a part to moves takes active states to active states. -/
theorem Active.map_of_closed {T : Set τ} (hclosed : ∀ s ∈ P, ∀ o t, t ∈ M.step s o → t ∈ P)
    (hS : S ⊆ P) (hstart : ∀ s ∈ S, φ s ∈ T)
    (hstep : ∀ s ∈ P, ∀ o t, t ∈ M.step s o → φ t ∈ N.step (φ s) o) (hs : Active M S x s) :
    Active N T x (φ s) := by
  induction hs with
  | base hs => exact Active.base (hstart _ hs)
  | eps hs ht ih => exact Active.eps ih (hstep _ (hs.mem_of_closed hclosed hS) _ _ ht)
  | symbol hs ht ih => exact Active.symbol ih (hstep _ (hs.mem_of_closed hclosed hS) _ _ ht)

theorem Active.map {T : Set τ}
    (hstart : ∀ s ∈ S, φ s ∈ T) (hstep : ∀ s o t, t ∈ M.step s o → φ t ∈ N.step (φ s) o)
    (hs : Active M S x s) : Active N T x (φ s) :=
  hs.map_of_closed (P := Set.univ) (fun _ _ _ _ _ => trivial) (Set.subset_univ S) hstart
    fun s _ => hstep s

/-- Every active state is active from one of the starting states. -/
theorem Active.exists_singleton (hs : Active M S x s) : ∃ r ∈ S, Active M {r} x s := by
  induction hs with
  | @base s hs => exact ⟨s, hs, Active.base rfl⟩
  | eps _ ht ih =>
    obtain ⟨r, hr, ih⟩ := ih
    exact ⟨r, hr, Active.eps ih ht⟩
  | symbol _ ht ih =>
    obtain ⟨r, hr, ih⟩ := ih
    exact ⟨r, hr, Active.symbol ih ht⟩

theorem Active.append {x y : List α} {r s : σ}
    (hr : Active M S x r) (hs : Active M {r} y s) : Active M S (x ++ y) s := by
  induction hs with
  | base hs =>
    obtain rfl := Set.mem_singleton_iff.mp hs
    rwa [append_nil]
  | eps _ ht ih => exact Active.eps ih ht
  | @symbol y a s t _ ht ih =>
    rw [← append_assoc]
    exact Active.symbol ih ht

/-! ## §2 Embeddings -/

/-- `M` restricted to `P` sits inside `N` along `φ`: moves out of `P` stay in `P`, and the
moves of `N` from an image are the images of the moves of `M`. -/
structure Embeds (M : εNFA α σ) (N : εNFA α τ) (P : Set σ) (φ : σ → τ) : Prop where
  closed : ∀ s ∈ P, ∀ o t, t ∈ M.step s o → t ∈ P
  step : ∀ s ∈ P, ∀ o t', t' ∈ N.step (φ s) o ↔ ∃ t ∈ M.step s o, φ t = t'

/-- Running an embedded automaton inside the larger one is running it. -/
theorem Embeds.active_iff (h : Embeds M N P φ) (hS : S ⊆ P) {s' : τ} :
    Active N (φ '' S) x s' ↔ ∃ s, Active M S x s ∧ φ s = s' := by
  constructor
  · intro hs
    induction hs with
    | base hs =>
      obtain ⟨s, hs, rfl⟩ := hs
      exact ⟨s, Active.base hs, rfl⟩
    | eps _ ht ih =>
      obtain ⟨s, hs, rfl⟩ := ih
      obtain ⟨t, hst, rfl⟩ := (h.step s (hs.mem_of_closed h.closed hS) none _).mp ht
      exact ⟨t, Active.eps hs hst, rfl⟩
    | symbol _ ht ih =>
      obtain ⟨s, hs, rfl⟩ := ih
      obtain ⟨t, hst, rfl⟩ := (h.step s (hs.mem_of_closed h.closed hS) _ _).mp ht
      exact ⟨t, Active.symbol hs hst, rfl⟩
  · rintro ⟨s, hs, rfl⟩
    refine hs.map_of_closed h.closed hS (fun s => Set.mem_image_of_mem φ) fun s hs o t ht => ?_
    exact (h.step s hs o _).mpr ⟨t, ht, rfl⟩

/-! ## §3 Joining Two Automata By One Epsilon Move -/

/-- `M₁` and `M₂` sit inside `N`, and `N` has one more epsilon move, from the image of
`exit` to the image of `entry`. -/
structure Bridged {σ₁ σ₂ : Type v} (M₁ : εNFA α σ₁) (M₂ : εNFA α σ₂) (N : εNFA α τ)
    (P₁ : Set σ₁) (P₂ : Set σ₂) (φ₁ : σ₁ → τ) (φ₂ : σ₂ → τ) (exit : σ₁) (entry : σ₂) :
    Prop where
  closed : ∀ s ∈ P₁, ∀ o t, t ∈ M₁.step s o → t ∈ P₁
  step : ∀ s ∈ P₁, ∀ o t', t' ∈ N.step (φ₁ s) o ↔
    (∃ t ∈ M₁.step s o, φ₁ t = t') ∨ (s = exit ∧ o = none ∧ t' = φ₂ entry)
  second : Embeds M₂ N P₂ φ₂
  entry_mem : entry ∈ P₂

section

variable {σ₁ σ₂ : Type v} {M₁ : εNFA α σ₁} {M₂ : εNFA α σ₂} {P₁ : Set σ₁} {P₂ : Set σ₂}
  {φ₁ : σ₁ → τ} {φ₂ : σ₂ → τ} {exit : σ₁} {entry : σ₂} {S : Set σ₁}
  (h : Bridged M₁ M₂ N P₁ P₂ φ₁ φ₂ exit entry) (hS : S ⊆ P₁)
include h hS

/-- The runs of a bridged automaton: either still in the first part, or the word splits
where the bridge was crossed. -/
theorem Bridged.active_iff {s' : τ} : Active N (φ₁ '' S) x s' ↔
      (∃ s, Active M₁ S x s ∧ φ₁ s = s') ∨
        ∃ y z, x = y ++ z ∧ Active M₁ S y exit ∧ ∃ s, Active M₂ {entry} z s ∧ φ₂ s = s' := by
  have hentry : ({entry} : Set σ₂) ⊆ P₂ := Set.singleton_subset_iff.mpr h.entry_mem
  constructor
  · intro hs
    induction hs with
    | base hs =>
      obtain ⟨s, hs, rfl⟩ := hs
      exact .inl ⟨s, Active.base hs, rfl⟩
    | @eps x s' t' _ ht ih =>
      rcases ih with ⟨s, hs, rfl⟩ | ⟨y, z, rfl, hy, s, hs, rfl⟩
      · rcases (h.step s (hs.mem_of_closed h.closed hS) none t').mp ht with
          ⟨t, hst, rfl⟩ | ⟨rfl, -, rfl⟩
        · exact .inl ⟨t, Active.eps hs hst, rfl⟩
        · -- the bridge is crossed here
          exact .inr ⟨x, [], (append_nil x).symm, hs, entry, Active.base rfl, rfl⟩
      · obtain ⟨t, hst, rfl⟩ :=
          (h.second.step s (hs.mem_of_closed h.second.closed hentry) none t').mp ht
        exact .inr ⟨y, z, rfl, hy, t, Active.eps hs hst, rfl⟩
    | @symbol x a s' t' _ ht ih =>
      rcases ih with ⟨s, hs, rfl⟩ | ⟨y, z, rfl, hy, s, hs, rfl⟩
      · rcases (h.step s (hs.mem_of_closed h.closed hS) (some a) t').mp ht with
          ⟨t, hst, rfl⟩ | ⟨-, hnone, -⟩
        · exact .inl ⟨t, Active.symbol hs hst, rfl⟩
        · cases hnone
      · obtain ⟨t, hst, rfl⟩ :=
          (h.second.step s (hs.mem_of_closed h.second.closed hentry) (some a) t').mp ht
        exact .inr ⟨y, z ++ [a], append_assoc y z [a], hy, t, Active.symbol hs hst, rfl⟩
  · have hfirst : ∀ {x s}, Active M₁ S x s → Active N (φ₁ '' S) x (φ₁ s) := by
      intro x s hs
      refine hs.map_of_closed h.closed hS (fun s => Set.mem_image_of_mem φ₁) fun s hs o t ht => ?_
      exact (h.step s hs o _).mpr (.inl ⟨t, ht, rfl⟩)
    rintro (⟨s, hs, rfl⟩ | ⟨y, z, rfl, hy, s, hs, rfl⟩)
    · exact hfirst hs
    · have hcross : Active N (φ₁ '' S) y (φ₂ entry) :=
        Active.eps (hfirst hy)
          ((h.step exit (hy.mem_of_closed h.closed hS) none _).mpr (.inr ⟨rfl, rfl, rfl⟩))
      refine hcross.append ?_
      have himage : Active N (φ₂ '' {entry}) z (φ₂ s) :=
        (h.second.active_iff hentry).mpr ⟨s, hs, rfl⟩
      rwa [Set.image_singleton] at himage

end

/-! ## §4 Runs -/

/-- The state a partial transition function reaches from `s` along a word. -/
def runFrom (δ : σ → α → Option σ) (s : σ) : List α → Option σ
  | [] => some s
  | a :: x => (δ s a).bind fun t => runFrom δ t x

@[simp] theorem runFrom_nil (δ : σ → α → Option σ) (s : σ) : runFrom δ s [] = some s := rfl

@[simp] theorem runFrom_cons (δ : σ → α → Option σ) (s : σ) (a : α) (x : List α) :
    runFrom δ s (a :: x) = (δ s a).bind fun t => runFrom δ t x := rfl

theorem runFrom_append (δ : σ → α → Option σ) (s : σ) (x y : List α) :
    runFrom δ s (x ++ y) = (runFrom δ s x).bind fun t => runFrom δ t y := by
  induction x generalizing s with
  | nil => rfl
  | cons a x ih =>
    rw [cons_append, runFrom_cons, runFrom_cons]
    cases δ s a with
    | none => rfl
    | some t => exact ih t

theorem runFrom_append_singleton (δ : σ → α → Option σ) (s : σ) (x : List α) (a : α) :
    runFrom δ s (x ++ [a]) = (runFrom δ s x).bind fun t => δ t a := by
  rw [runFrom_append]
  congr 1
  funext t
  rw [runFrom_cons]
  cases δ t a <;> rfl

/-! ## §5 Realising A Transition Function -/

/-- The states of `N` in `P` stand for values, and `N` moves as the partial function `δ` on
values does. -/
structure Realises {β : Type*} (N : εNFA α τ) (P : Set τ) (δ : β → α → Option β) (b₀ : β)
    (val : τ → β) : Prop where
  eps : ∀ d ∈ P, N.step d none = ∅
  start : ∀ d ∈ N.start, d ∈ P ∧ val d = b₀
  start_nonempty : N.start.Nonempty
  step : ∀ d ∈ P, ∀ a e, e ∈ N.step d (some a) → e ∈ P ∧ δ (val d) a = some (val e)
  exists_step : ∀ d ∈ P, ∀ a b, δ (val d) a = some b → (N.step d (some a)).Nonempty

/-- An active state stands for the value the word leads to. -/
theorem Realises.run_of_active {β : Type*} {P : Set τ} {δ : β → α → Option β}
    {b₀ : β} {val : τ → β} (h : Realises N P δ b₀ val) {d : τ}
    (hd : Active N N.start x d) : d ∈ P ∧ runFrom δ b₀ x = some (val d) := by
  induction hd with
  | @base d hd =>
    obtain ⟨hmem, hval⟩ := h.start d hd
    exact ⟨hmem, congrArg some hval.symm⟩
  | @eps x d e _ he ih =>
    rw [h.eps d ih.1] at he
    exact absurd he (Set.notMem_empty e)
  | @symbol x a d e _ he ih =>
    obtain ⟨hmem, hstep⟩ := h.step d ih.1 a e he
    refine ⟨hmem, ?_⟩
    rw [runFrom_append_singleton, ih.2, bind_some, hstep]

/-- Every value a word leads to has an active state. -/
theorem Realises.exists_active {β : Type*} {P : Set τ} {δ : β → α → Option β}
    {b₀ : β} {val : τ → β} (h : Realises N P δ b₀ val) {b : β}
    (hb : runFrom δ b₀ x = some b) : ∃ d, Active N N.start x d ∧ val d = b := by
  induction x using List.reverseRecOn generalizing b with
  | nil =>
    obtain ⟨d, hd⟩ := h.start_nonempty
    cases hb
    exact ⟨d, Active.base hd, (h.start d hd).2⟩
  | append_singleton x a ih =>
    rw [runFrom_append_singleton] at hb
    obtain ⟨b', hb', hstep⟩ := bind_eq_some_iff.mp hb
    obtain ⟨d, hd, rfl⟩ := ih hb'
    have hmem := (h.run_of_active hd).1
    obtain ⟨e, he⟩ := h.exists_step d hmem a b hstep
    have hval := (h.step d hmem a e he).2
    exact ⟨e, Active.symbol hd he, some.inj (hval.symm.trans hstep)⟩

/-- `M` moves as the partial function `δ` does and has no epsilon moves. -/
structure Deterministic (M : εNFA α σ) (P : Set σ) (δ : σ → α → Option σ) : Prop where
  closed : ∀ s ∈ P, ∀ a t, δ s a = some t → t ∈ P
  eps : ∀ s ∈ P, M.step s none = ∅
  step : ∀ s ∈ P, ∀ a t, t ∈ M.step s (some a) ↔ δ s a = some t

/-- In a deterministic automaton the active states are the one state the word reaches. -/
theorem Deterministic.active_iff {δ : σ → α → Option σ} (h : Deterministic M P δ) (hs : s ∈ P) :
    Active M {s} x t ↔ runFrom δ s x = some t := by
  -- started from `s`, each state stands for itself
  have hr : Realises { M with start := {s} } P δ s id := by
    refine ⟨h.eps, fun d hd => ?_, Set.singleton_nonempty s, fun d hd a e he => ?_,
      fun d hd a b hb => ⟨b, (h.step d hd a b).mpr hb⟩⟩
    · obtain rfl := Set.mem_singleton_iff.mp hd
      exact ⟨hs, rfl⟩
    · have hstep := (h.step d hd a e).mp he
      exact ⟨h.closed d hd a e hstep, hstep⟩
  constructor
  · intro ht
    have ht' : Active { M with start := {s} } {s} x (id t) := by
      refine ht.map ?_ ?_
      · exact fun _ hs => hs
      · exact fun _ _ _ hst => hst
    exact (hr.run_of_active ht').2
  · intro ht
    obtain ⟨d, hd, rfl⟩ := hr.exists_active ht
    refine hd.map ?_ ?_
    · exact fun _ hs => hs
    · exact fun _ _ _ hst => hst

/-! ## §6 Sets Of States -/

open Classical in
/-- The move of the subset construction for an automaton without epsilon moves; there is
none to the empty set. -/
noncomputable def subsetStep (M : εNFA α σ) (S : Set σ) (a : α) : Option (Set σ) :=
  if {t | ∃ s ∈ S, t ∈ M.step s (some a)}.Nonempty then
    some {t | ∃ s ∈ S, t ∈ M.step s (some a)}
  else none

theorem subsetStep_eq_some_iff {a : α} :
    subsetStep M S a = some T ↔ T.Nonempty ∧ T = {t | ∃ s ∈ S, t ∈ M.step s (some a)} := by
  unfold subsetStep
  split
  · rename_i hne
    rw [some.injEq]
    constructor
    · intro h
      exact ⟨h ▸ hne, h.symm⟩
    · intro h
      exact h.2.symm
  · rename_i hne
    constructor
    · intro h
      cases h
    · intro ⟨hT, h⟩
      exact absurd (h ▸ hT) hne

theorem active_nil_iff (heps : ∀ s, M.step s none = ∅) : Active M S [] t ↔ t ∈ S := by
  constructor
  · intro ht
    generalize hx : ([] : List α) = x at ht
    cases ht with
    | base ht => exact ht
    | eps _ ht =>
      rw [heps] at ht
      exact absurd ht (Set.notMem_empty t)
    | symbol _ _ => exact absurd hx.symm (append_ne_nil_of_right_ne_nil _ (cons_ne_nil _ _))
  · exact Active.base

theorem active_append_singleton_iff (heps : ∀ s, M.step s none = ∅) {a : α} :
    Active M S (x ++ [a]) t ↔ ∃ s, Active M S x s ∧ t ∈ M.step s (some a) := by
  constructor
  · intro ht
    generalize hz : x ++ [a] = z at ht
    cases ht with
    | base _ => exact absurd hz (append_ne_nil_of_right_ne_nil _ (cons_ne_nil _ _))
    | eps _ ht =>
      rw [heps] at ht
      exact absurd ht (Set.notMem_empty t)
    | @symbol x' a' s _ hs ht =>
      obtain ⟨rfl, ha⟩ := append_inj' hz rfl
      obtain rfl : a = a' := by simpa using ha
      exact ⟨s, hs, ht⟩
  · intro ⟨s, hs, ht⟩
    exact Active.symbol hs ht

/-- Along a word the subset construction reaches the set of all active states. -/
theorem runFrom_subsetStep_iff (heps : ∀ s, M.step s none = ∅) (hS : S.Nonempty) :
    runFrom (subsetStep M) S x = some T ↔ T.Nonempty ∧ T = {t | Active M S x t} := by
  induction x using List.reverseRecOn generalizing T with
  | nil =>
    have hset : {t | Active M S [] t} = S := Set.ext fun t => active_nil_iff heps
    rw [runFrom_nil, some.injEq, hset]
    constructor
    · rintro rfl
      exact ⟨hS, rfl⟩
    · intro h
      exact h.2.symm
  | append_singleton x a ih =>
    have hset : {t | Active M S (x ++ [a]) t} =
        {t | ∃ s ∈ {s | Active M S x s}, t ∈ M.step s (some a)} :=
      Set.ext fun t => active_append_singleton_iff heps
    rw [runFrom_append_singleton, bind_eq_some_iff, hset]
    constructor
    · intro ⟨R, hR, hT⟩
      obtain ⟨-, rfl⟩ := ih.mp hR
      exact subsetStep_eq_some_iff.mp hT
    · intro ⟨hne, hT⟩
      -- a move out of the set needs a member
      have hR : {s | Active M S x s}.Nonempty := by
        obtain ⟨t, ht⟩ := hne
        rw [hT] at ht
        obtain ⟨s, hs, -⟩ := ht
        exact ⟨s, hs⟩
      exact ⟨_, ih.mpr ⟨hR, rfl⟩, subsetStep_eq_some_iff.mpr ⟨hne, hT⟩⟩

/-! ## §7 Stopping At The First Hit -/

section Absorb

variable {β : Type*} (δ : β → α → Option β) (stop : β → Prop) [DecidablePred stop]

/-- The position for a value: `none` once the value is one to stop at. -/
def absorbAt (b : β) : Option β := if stop b then none else some b

/-- The moves of `δ`, except that a value to stop at is never left. -/
def absorb : Option β → α → Option (Option β)
  | none, _ => some none
  | some b, a => (δ b a).map (absorbAt stop)

open Classical in
/-- A word leads to the stop if one of its prefixes leads to a value to stop at, and else where
`δ` leads. -/
theorem runFrom_absorb (b₀ : β) (x : List α) : runFrom (absorb δ stop) (absorbAt stop b₀) x =
      if ∃ p, p <+: x ∧ ∃ b, runFrom δ b₀ p = some b ∧ stop b then some none
      else (runFrom δ b₀ x).map some := by
  induction x using List.reverseRecOn with
  | nil =>
    have hiff : (∃ p, p <+: [] ∧ ∃ b, runFrom δ b₀ p = some b ∧ stop b) ↔ stop b₀ := by
      simp [prefix_nil]
    simp only [hiff, runFrom_nil, absorbAt, map_some]
    split <;> rfl
  | append_singleton x a ih =>
    rw [runFrom_append_singleton, ih]
    by_cases hx : ∃ p, p <+: x ∧ ∃ b, runFrom δ b₀ p = some b ∧ stop b
    · -- stopped before the last symbol
      have hxa : ∃ p, p <+: x ++ [a] ∧ ∃ b, runFrom δ b₀ p = some b ∧ stop b := by
        obtain ⟨p, hp, hb⟩ := hx
        exact ⟨p, hp.trans (prefix_append x [a]), hb⟩
      rw [if_pos hx, if_pos hxa]
      rfl
    · have hxa : (∃ p, p <+: x ++ [a] ∧ ∃ b, runFrom δ b₀ p = some b ∧ stop b) ↔
          ∃ b, runFrom δ b₀ (x ++ [a]) = some b ∧ stop b := by
        constructor
        · intro ⟨p, hp, hb⟩
          rcases prefix_concat_iff.mp hp with rfl | hp
          · exact hb
          · exact absurd ⟨p, hp, hb⟩ hx
        · intro hb
          exact ⟨_, prefix_rfl, hb⟩
      rw [if_neg hx]
      simp only [hxa, runFrom_append_singleton]
      rcases runFrom δ b₀ x with _ | b
      · simp
      · simp only [map_some, bind_some, absorb]
        rcases δ b a with _ | b'
        · simp
        · simp only [map_some, absorbAt, some.injEq, exists_eq_left']
          split <;> rfl

end Absorb

end Libfsm.Lib
