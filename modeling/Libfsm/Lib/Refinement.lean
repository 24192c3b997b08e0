import Mathlib.Data.List.Basic
import Mathlib.Data.List.Infix

/-!
# Runs Of A Data Structure

A data structure whose operations may fail, run side by side with the mathematical object it
stands for.  `R` relates the two, `safe` is a condition on an operation in the state it is
applied to.  If an operation keeps the relation exactly under its condition, then a run keeps it
throughout exactly if each of its operations meets its condition when its turn comes.

- `forall_prefix_foldlM_iff`: for operations that may fail
- `runsAlong_of_safeAlong`: for operations whose effect is a relation
-/

namespace Libfsm.Lib

variable {σ τ α : Type*} {R : σ → τ → Prop} {safe : σ → α → Prop} {spec : τ → α → τ}

variable {step : σ → α → Option σ} {s : σ} {t : τ}

theorem forall_prefix_foldlM_iff
    (hstep : ∀ {s t} op, R s t → ((∃ s', step s op = some s' ∧ R s' (spec t op)) ↔ safe s op))
    (h : R s t) (ops : List α) :
    (∀ pre, pre <+: ops → ∃ s', pre.foldlM step s = some s' ∧ R s' (pre.foldl spec t)) ↔
      ∀ pre op, pre ++ [op] <+: ops → ∀ s', pre.foldlM step s = some s' → safe s' op := by
  constructor
  · intro hrun pre op hpre s' hs'
    obtain ⟨s₁, hs₁, hR₁⟩ := hrun pre ((List.prefix_append pre [op]).trans hpre)
    cases hs₁.symm.trans hs'
    obtain ⟨s₂, hs₂, hR₂⟩ := hrun (pre ++ [op]) hpre
    rw [List.foldl_append] at hR₂
    rw [List.foldlM_append, hs₁] at hs₂
    exact (hstep op hR₁).mp ⟨s₂, by simpa using hs₂, hR₂⟩
  · intro hsafe pre
    -- one more operation at the end of the part already run
    induction pre using List.reverseRecOn with
    | nil => exact fun _ => ⟨s, rfl, h⟩
    | append_singleton pre op ih =>
      intro hpre
      obtain ⟨s₁, hs₁, hR₁⟩ := ih ((List.prefix_append pre [op]).trans hpre)
      obtain ⟨s₂, hs₂, hR₂⟩ := (hstep op hR₁).mpr (hsafe pre op hpre s₁ hs₁)
      refine ⟨s₂, ?_, ?_⟩
      · simpa [List.foldlM_append, hs₁] using hs₂
      · simpa [List.foldl_append] using hR₂

/-! ## Effects That Leave A Choice -/

/-- The operations can be run from `s`, and the object can follow them from `t` so that the
observation `P` relates the two all along. -/
def RunsAlong (step : σ → α → Option σ) (effect : α → τ → τ → Prop) (P : σ → τ → Prop) :
    List α → σ → τ → Prop
  | [], s, t => P s t
  | op :: ops, s, t => P s t ∧ ∃ s', step s op = some s' ∧ ∃ t', effect op t t' ∧
      RunsAlong step effect P ops s' t'

/-- Each operation meets its condition when its turn comes. -/
def SafeAlong (step : σ → α → Option σ) (safe : σ → α → Prop) : List α → σ → Prop
  | [], _ => True
  | op :: ops, s => safe s op ∧ ∀ s', step s op = some s' → SafeAlong step safe ops s'

instance SafeAlong.decidable [∀ s op, Decidable (safe s op)] :
    ∀ ops s, Decidable (SafeAlong step safe ops s)
  | [], _ => inferInstanceAs (Decidable True)
  | op :: ops, s =>
    match h : step s op with
    | none => decidable_of_iff (safe s op) (by simp [SafeAlong, h])
    | some s' =>
      haveI := SafeAlong.decidable ops s'
      decidable_of_iff (safe s op ∧ SafeAlong step safe ops s') (by simp [SafeAlong, h])

/-- An invariant `R` that implies the observation, and is kept by every operation that meets its
condition: a run whose operations all meet it can be followed. -/
theorem runsAlong_of_safeAlong {effect : α → τ → τ → Prop} {P : σ → τ → Prop}
    (hobs : ∀ {s t}, R s t → P s t)
    (hkeep : ∀ {s t} op, R s t → safe s op →
      ∃ s', step s op = some s' ∧ ∃ t', effect op t t' ∧ R s' t') {ops : List α} (h : R s t)
    (hsafe : SafeAlong step safe ops s) : RunsAlong step effect P ops s t := by
  induction ops generalizing s t with
  | nil => exact hobs h
  | cons op ops ih =>
    obtain ⟨hop, hrest⟩ := hsafe
    obtain ⟨s', hs', t', ht', hR⟩ := hkeep op h hop
    exact ⟨hobs h, s', hs', t', ht', ih hR (hrest s' hs')⟩

end Libfsm.Lib
