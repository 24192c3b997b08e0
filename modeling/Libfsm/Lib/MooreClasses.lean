import Libfsm.Lib.EpsilonAutomata

/-!
# Classes Of States

Deterministic automata with a partial transition function `δ` and an output `out` for each state.

- `Stable`: a classification of states that moves and outputs respect
- `runFrom_quotient`: the automaton of the classes moves as the states do
-/

namespace Libfsm.Lib

variable {σ α ω κ : Type*} {δ : σ → α → Option σ} {out : σ → ω}

/-- States of `S` with the same class have the same output and move to the same classes. -/
structure Stable (δ : σ → α → Option σ) (out : σ → ω) (S : Set σ) (cls : σ → κ) : Prop where
  out_eq : ∀ s ∈ S, ∀ t ∈ S, cls s = cls t → out s = out t
  step_eq : ∀ s ∈ S, ∀ t ∈ S, cls s = cls t → ∀ a, (δ s a).map cls = (δ t a).map cls

/-- **The automaton of the classes** moves as the states do. -/
theorem runFrom_quotient {S : Set σ} {cls : σ → κ} {δ' : κ → α → Option κ}
    (hclosed : ∀ s ∈ S, ∀ a t, δ s a = some t → t ∈ S)
    (hstep : ∀ s ∈ S, ∀ a, δ' (cls s) a = (δ s a).map cls) {s : σ} (hs : s ∈ S) (x : List α) :
    runFrom δ' (cls s) x = (runFrom δ s x).map cls := by
  induction x generalizing s with
  | nil => rfl
  | cons a x ih =>
    rw [runFrom_cons, runFrom_cons, hstep s hs a]
    cases hsa : δ s a with
    | none => rfl
    | some t => exact ih (hclosed s hs a t hsa)

end Libfsm.Lib
