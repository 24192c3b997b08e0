import Mathlib.Data.List.Basic
import Mathlib.Logic.Function.Basic

/-!
# Loops over Lists

What a loop `l.foldl step b` does, from what one iteration does.

- `foldl_or_iff`: every iteration adds what its element brings
- `foldl_eq_of_step`: no iteration changes it
- `foldl_eq_ite`: some iterations write the same value
-/

namespace Libfsm.Lib

variable {α β γ : Type*} {step : β → α → β} {l : List α} {b : β}

/-- **What a loop adds**: what holds after it held before or comes from an element.  `I` is an
invariant of the loop. -/
theorem foldl_or_iff_of_inv (I P : β → Prop) {Q : α → Prop}
    (h : ∀ b, I b → ∀ x ∈ l, I (step b x) ∧ (P (step b x) ↔ P b ∨ Q x)) (hb : I b) :
    P (l.foldl step b) ↔ P b ∨ ∃ x ∈ l, Q x := by
  induction l generalizing b with
  | nil => simp
  | cons x l ih =>
    obtain ⟨hstep, hx⟩ := h b hb x List.mem_cons_self
    have hrest := ih (fun b hb y hy => h b hb y (List.mem_cons_of_mem x hy)) hstep
    rw [List.foldl_cons, hrest, hx, List.exists_mem_cons_iff, or_assoc]

theorem foldl_or_iff (P : β → Prop) {Q : α → Prop} (h : ∀ b x, P (step b x) ↔ P b ∨ Q x) :
    P (l.foldl step b) ↔ P b ∨ ∃ x ∈ l, Q x :=
  foldl_or_iff_of_inv (fun _ => True) P (fun b _ x _ => ⟨trivial, h b x⟩) trivial

/-- **What a loop leaves alone**. -/
theorem foldl_eq_of_step (F : β → γ) (h : ∀ b, ∀ x ∈ l, F (step b x) = F b) :
    F (l.foldl step b) = F b := by
  induction l generalizing b with
  | nil => rfl
  | cons x l ih =>
    apply (ih fun b y hy => h b y (List.mem_cons_of_mem x hy)).trans
    exact h b x List.mem_cons_self

/-- **What a loop writes**, if it writes the same value in all iterations that write. -/
theorem foldl_eq_ite (F : β → γ) {p : α → Prop} [DecidablePred p] {v : γ}
    (h : ∀ b x, F (step b x) = if p x then v else F b) :
    F (l.foldl step b) = if ∃ x ∈ l, p x then v else F b := by
  induction l generalizing b with
  | nil => simp
  | cons x l ih =>
    rw [List.foldl_cons, ih, h]
    by_cases hx : p x <;> simp [hx]

theorem foldl_update_eq [DecidableEq α] (g : α → γ) (l : List α) (init : α → γ) (s : α) :
    l.foldl (fun m s => Function.update m s (g s)) init s = if s ∈ l then g s else init s := by
  rw [foldl_eq_ite (fun m : α → γ => m s) (p := (s = ·)) (v := g s) fun m x => ?_]
  · simp
  · by_cases hx : s = x <;> simp [hx]

end Libfsm.Lib
