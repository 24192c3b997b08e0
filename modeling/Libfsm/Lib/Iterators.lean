import Mathlib.Tactic

/-!
# Resumable Iterators

An iterator is a state and a function `next` that is called again and again: each call gives an
item and the state for the next call, or says that there are no more items.

- `Yields`: the items that calls from a state give, until there are no more
- `yields_of_rest`: the rule to find them, with a guess for what is still to come
-/

namespace Libfsm.Lib

variable {σ ε : Type*} {next : σ → Option (ε × σ)}

/-- Calls from the state give the items of the list, and then no more. -/
inductive Yields (next : σ → Option (ε × σ)) : σ → List ε → Prop
  | stop {s : σ} : next s = none → Yields next s []
  | item {s s' : σ} {e : ε} {es : List ε} :
    next s = some (e, s') → Yields next s' es → Yields next s (e :: es)

/-- **What is still to come**: it is enough to say for each state what should be left, if each
call takes the first item of that. -/
theorem yields_of_rest (P : σ → Prop) (rest : σ → List ε)
    (hstep : ∀ s, P s → (next s = none ∧ rest s = []) ∨
      ∃ e s', next s = some (e, s') ∧ rest s = e :: rest s' ∧ P s') {s : σ} (hs : P s) :
    Yields next s (rest s) := by
  induction hlen : (rest s).length generalizing s with
  | zero =>
    rcases hstep s hs with ⟨hnone, hnil⟩ | ⟨e, s', -, hcons, -⟩
    · rw [hnil]
      exact .stop hnone
    · rw [hcons] at hlen
      cases hlen
  | succ k ih =>
    rcases hstep s hs with ⟨-, hnil⟩ | ⟨e, s', hsome, hcons, hs'⟩
    · rw [hnil] at hlen
      cases hlen
    · rw [hcons] at hlen ⊢
      exact .item hsome (ih hs' (Nat.succ.inj hlen))

end Libfsm.Lib
