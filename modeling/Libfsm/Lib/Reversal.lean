import Libfsm.Lib.EpsilonAutomata

/-!
# Reversing Automata

An automaton with epsilon moves read backwards, and two ways to give an automaton a single new
start state.

- `reverseNfa`: all moves the other way, start and accepting states exchanged
- `accepts_reverseNfa`: its language
- `FreshStart`: a new state to start from, before which nothing is known about its moves
- `FreshStart.accepts_of_eps`, `FreshStart.accepts_of_copy`: moves that keep the language
-/

namespace Libfsm.Lib

universe u v

variable {α : Type u} {σ : Type v}

/-! ## §1 Backwards -/

/-- All moves the other way. -/
def reverseNfa (M : εNFA α σ) : εNFA α σ where
  step s o := {t | s ∈ M.step t o}
  start := M.accept
  accept := M.start

theorem reverseNfa_reverseNfa (M : εNFA α σ) : reverseNfa (reverseNfa M) = M := rfl

/-- A run read from its end. -/
theorem Active.reverse {M : εNFA α σ} {s t : σ} {x : List α} (h : Active M {s} x t) :
    Active (reverseNfa M) {t} x.reverse s := by
  induction h with
  | base hs =>
    rw [Set.mem_singleton_iff.mp hs]
    exact Active.base rfl
  | @eps x r t _ ht ih =>
    have hmove : Active (reverseNfa M) {t} [] r :=
      Active.eps (Active.base (Set.mem_singleton t)) (show r ∈ (reverseNfa M).step t none from ht)
    exact hmove.append ih
  | @symbol x a r t _ ht ih =>
    have hmove : Active (reverseNfa M) {t} [a] r := Active.symbol (x := []) (Active.base rfl) ht
    rw [List.reverse_append]
    exact hmove.append ih

theorem accepts_reverseNfa (M : εNFA α σ) : (reverseNfa M).accepts = M.accepts.reverse := by
  -- one direction for every automaton gives the other one
  have hsub : ∀ (M : εNFA α σ) (x : List α), x ∈ M.accepts →
      x.reverse ∈ (reverseNfa M).accepts := by
    intro M x hx
    obtain ⟨t, ht, hactive⟩ := mem_accepts_iff_active.mp hx
    obtain ⟨s, hs, hrun⟩ := hactive.exists_singleton
    refine mem_accepts_iff_active.mpr ⟨s, hs, hrun.reverse.mono ?_⟩
    exact Set.singleton_subset_iff.mpr ht
  ext x
  constructor
  · intro hx
    have := hsub (reverseNfa M) x hx
    rwa [reverseNfa_reverseNfa] at this
  · intro hx
    have := hsub M x.reverse hx
    rwa [List.reverse_reverse] at this

/-! ## §2 A New Start State -/

/-- `N` is `M` with a state `q` to start from that `M` does not use. -/
structure FreshStart (M N : εNFA α σ) (q : σ) : Prop where
  step_eq : ∀ s, s ≠ q → ∀ o, N.step s o = M.step s o
  unused : ∀ s o, q ∉ M.step s o
  start_eq : N.start = {q}
  notMem_start : q ∉ M.start
  accept_iff : ∀ s, s ≠ q → (s ∈ N.accept ↔ s ∈ M.accept)

namespace FreshStart

variable {M N : εNFA α σ} {q : σ}

theorem active_ne (h : FreshStart M N q) {x : List α} {t : σ} (ht : Active M M.start x t) :
    t ≠ q := by
  cases ht with
  | base hs => exact fun heq => h.notMem_start (heq ▸ hs)
  | eps _ ht => exact fun heq => h.unused _ _ (heq ▸ ht)
  | symbol _ ht => exact fun heq => h.unused _ _ (heq ▸ ht)

section

variable (h : FreshStart M N q) (heps : N.step q none = M.start) (hsym : ∀ a, N.step q (some a) = ∅)
include h heps hsym

/-- Epsilon moves to all start states. -/
theorem active_of_eps {x : List α} {t : σ} :
    Active N N.start x t ↔ (t = q ∧ x = []) ∨ Active M M.start x t := by
  rw [h.start_eq]
  constructor
  · intro hactive
    induction hactive with
    | base hs => exact .inl ⟨hs, rfl⟩
    | eps _ ht ih =>
      rcases ih with ⟨rfl, rfl⟩ | ih
      · exact .inr (Active.base (heps ▸ ht))
      · rw [h.step_eq _ (h.active_ne ih)] at ht
        exact .inr (ih.eps ht)
    | symbol _ ht ih =>
      rcases ih with ⟨rfl, rfl⟩ | ih
      · rw [hsym] at ht
        exact absurd ht (Set.notMem_empty _)
      · rw [h.step_eq _ (h.active_ne ih)] at ht
        exact .inr (ih.symbol ht)
  · rintro (⟨rfl, rfl⟩ | hactive)
    · exact Active.base rfl
    · induction hactive with
      | base hs => exact Active.eps (Active.base (Set.mem_singleton q)) (heps.symm ▸ hs)
      | eps hr ht ih =>
        rw [← h.step_eq _ (h.active_ne hr)] at ht
        exact ih.eps ht
      | symbol hr ht ih =>
        rw [← h.step_eq _ (h.active_ne hr)] at ht
        exact ih.symbol ht

theorem accepts_of_eps (hacc : q ∉ N.accept) : N.accepts = M.accepts := by
  ext x
  rw [mem_accepts_iff_active, mem_accepts_iff_active]
  constructor
  · rintro ⟨t, ht, hactive⟩
    rcases (h.active_of_eps heps hsym).mp hactive with ⟨rfl, -⟩ | hactive
    · exact absurd ht hacc
    · exact ⟨t, (h.accept_iff t (h.active_ne hactive)).mp ht, hactive⟩
  · rintro ⟨t, ht, hactive⟩
    exact ⟨t, (h.accept_iff t (h.active_ne hactive)).mpr ht,
      (h.active_of_eps heps hsym).mpr (.inr hactive)⟩

end

section

variable (h : FreshStart M N q) (hM : ∀ s, M.step s none = ∅) (heps : N.step q none = ∅)
include h hM heps

/-- The moves of all start states, for an automaton without epsilon moves. -/
theorem active_of_copy
    (hsym : ∀ a, N.step q (some a) = {t | ∃ s ∈ M.start, t ∈ M.step s (some a)}) {x : List α}
    {t : σ} : Active N N.start x t ↔ (t = q ∧ x = []) ∨ (x ≠ [] ∧ Active M M.start x t) := by
  rw [h.start_eq]
  constructor
  · intro hactive
    induction hactive with
    | base hs => exact .inl ⟨hs, rfl⟩
    | eps _ ht ih =>
      rcases ih with ⟨rfl, rfl⟩ | ⟨-, ih⟩
      · rw [heps] at ht
        exact absurd ht (Set.notMem_empty _)
      · rw [h.step_eq _ (h.active_ne ih), hM] at ht
        exact absurd ht (Set.notMem_empty _)
    | symbol _ ht ih =>
      rcases ih with ⟨rfl, rfl⟩ | ⟨-, ih⟩
      · rw [hsym] at ht
        obtain ⟨s, hs, ht⟩ := ht
        exact .inr ⟨List.cons_ne_nil _ _, Active.symbol (x := []) (Active.base hs) ht⟩
      · rw [h.step_eq _ (h.active_ne ih)] at ht
        exact .inr ⟨by simp, ih.symbol ht⟩
  · rintro (⟨rfl, rfl⟩ | ⟨hne, hactive⟩)
    · exact Active.base rfl
    · induction hactive with
      | base _ => exact absurd rfl hne
      | eps _ ht _ =>
        rw [hM] at ht
        exact absurd ht (Set.notMem_empty _)
      | @symbol x a r t hr ht ih =>
        rcases eq_or_ne x [] with rfl | hx
        · -- the first symbol: `r` is a start state, as there are no epsilon moves
          have hstart : r ∈ M.start := (active_nil_iff hM).mp hr
          have hmove : t ∈ N.step q (some a) := by
            rw [hsym]
            exact ⟨r, hstart, ht⟩
          exact Active.symbol (x := []) (Active.base rfl) hmove
        · rw [← h.step_eq _ (h.active_ne hr)] at ht
          exact (ih hx).symbol ht

theorem accepts_of_copy (hsym : ∀ a, N.step q (some a) = {t | ∃ s ∈ M.start, t ∈ M.step s (some a)})
    (hacc : q ∈ N.accept ↔ ∃ s ∈ M.start, s ∈ M.accept) : N.accepts = M.accepts := by
  ext x
  rw [mem_accepts_iff_active, mem_accepts_iff_active]
  constructor
  · rintro ⟨t, ht, hactive⟩
    rcases (h.active_of_copy hM heps hsym).mp hactive with ⟨rfl, rfl⟩ | ⟨-, hactive⟩
    · obtain ⟨s, hs, hs'⟩ := hacc.mp ht
      exact ⟨s, hs', Active.base hs⟩
    · exact ⟨t, (h.accept_iff t (h.active_ne hactive)).mp ht, hactive⟩
  · rintro ⟨t, ht, hactive⟩
    rcases eq_or_ne x [] with rfl | hx
    · have hstart : t ∈ M.start := (active_nil_iff hM).mp hactive
      exact ⟨q, hacc.mpr ⟨t, hstart, ht⟩, (h.active_of_copy hM heps hsym).mpr (.inl ⟨rfl, rfl⟩)⟩
    · exact ⟨t, (h.accept_iff t (h.active_ne hactive)).mpr ht,
        (h.active_of_copy hM heps hsym).mpr (.inr ⟨hx, hactive⟩)⟩

end

end FreshStart

end Libfsm.Lib
