import Mathlib.Data.List.Sort
import Mathlib.Order.Basic

/-!
# Least-Cost Paths

Labelled paths with what they cost, and the argument that carries a search which settles the
cheapest node that is left.

- `CostPath`: a path, node by node with the label that leads there, and its cost
- `CostPath.settled_or_le`: every path ends at a settled node or costs as much as the frontier
- `pairwise_orderedInsert`: an ordered list after an insertion, for any relation on its entries
-/

namespace Libfsm.Lib

open List hiding nil cons

universe u v

variable {σ : Type u} {α : Type v}

/-! ## §1 Paths -/

/-- `p` is a path from `a` to `s` that costs `k`.  Each entry is a node and the label that leads
there; the label of `a` is `l`. -/
inductive CostPath (R : σ → α → σ → Prop) (w : σ → σ → α → ℕ) (a : σ) (l : α) :
    List (σ × α) → σ → ℕ → Prop
  | start : CostPath R w a l [(a, l)] a 0
  | step {p : List (σ × α)} {s t : σ} {k : ℕ} {c : α} (hp : CostPath R w a l p s k)
      (hstep : R s c t) : CostPath R w a l (p ++ [(t, c)]) t (k + w s t c)

namespace CostPath

variable {R R' : σ → α → σ → Prop} {w : σ → σ → α → ℕ} {a : σ} {l : α} {p : List (σ × α)} {s : σ}
  {k : ℕ}

theorem mono (hR : ∀ s c t, R s c t → R' s c t) (h : CostPath R w a l p s k) :
    CostPath R' w a l p s k := by
  induction h with
  | start => exact .start
  | step _ hstep ih => exact ih.step (hR _ _ _ hstep)

theorem length_pos (h : CostPath R w a l p s k) : 0 < p.length := by
  cases h <;> simp

theorem append_ne_singleton (h : CostPath R w a l p s k) (d e : σ × α) : [e] ≠ p ++ [d] := by
  intro heq
  have hlen := congrArg List.length heq
  rw [length_append, length_singleton, length_singleton] at hlen
  have := h.length_pos
  omega

/-- A path of one entry is the empty one. -/
theorem eq_start_of_singleton {e : σ × α} (h : CostPath R w a l [e] s k) : e.1 = a ∧ s = a := by
  generalize hp : [e] = p at h
  cases h with
  | start => exact ⟨by rw [singleton_inj.mp hp], rfl⟩
  | step hq _ => exact absurd hp (hq.append_ne_singleton _ _)

/-- The entries tell where a path ends and what it costs. -/
theorem unique {s' : σ} {k' : ℕ} (h : CostPath R w a l p s k) (h' : CostPath R' w a l p s' k') :
    s = s' ∧ k = k' := by
  induction h generalizing s' k' with
  | start =>
    generalize hp : [(a, l)] = p at h'
    cases h' with
    | start => exact ⟨rfl, rfl⟩
    | step hq _ => exact absurd hp (hq.append_ne_singleton _ _)
  | @step p s t k c hp _ ih =>
    generalize heq : p ++ [(t, c)] = q at h'
    cases h' with
    | start => exact absurd heq.symm (hp.append_ne_singleton _ _)
    | @step p' s'' t' k'' c' hp' _ =>
      obtain ⟨rfl, hlast⟩ := append_inj' heq rfl
      obtain ⟨rfl, rfl⟩ := Prod.mk.inj (singleton_inj.mp hlast)
      obtain ⟨rfl, rfl⟩ := ih hp'
      exact ⟨rfl, rfl⟩

/-- Every path ends at a settled node that costs no more, or costs at least `m`, when all moves of
settled nodes lead to settled nodes or cost that much. -/
theorem settled_or_le (Settled : σ → ℕ → Prop) (m : ℕ) (hstart : Settled a 0 ∨ m = 0)
    (hmove : ∀ s d c t, Settled s d → R s c t →
      (∃ d', Settled t d' ∧ d' ≤ d + w s t c) ∨ m ≤ d + w s t c)
    (h : CostPath R w a l p s k) : (∃ d, Settled s d ∧ d ≤ k) ∨ m ≤ k := by
  induction h with
  | start =>
    rcases hstart with hstart | hm
    · exact .inl ⟨0, hstart, le_refl 0⟩
    · exact .inr hm.le
  | @step p s t k c _ hstep ih =>
    rcases ih with ⟨d, hd, hdk⟩ | hm
    · rcases hmove s d c t hd hstep with ⟨d', hd', hle⟩ | hle
      · exact .inl ⟨d', hd', by omega⟩
      · exact .inr (by omega)
    · exact .inr (by omega)

end CostPath

/-! ## §2 Ordered Lists -/

/-- Insertion keeps a relation on the entries that holds around the new one. -/
theorem pairwise_orderedInsert {r Q : σ → σ → Prop} [DecidableRel r] {a : σ} {l : List σ}
    (hl : l.Pairwise Q) (hbefore : ∀ x ∈ l, ¬ r a x → Q x a) (hafter : ∀ x ∈ l, r a x → Q a x)
    (hmono : ∀ x ∈ l, ∀ y ∈ l, r a x → Q x y → r a y) : (l.orderedInsert r a).Pairwise Q := by
  induction l with
  | nil => exact pairwise_singleton Q a
  | cons b l ih =>
    rw [pairwise_cons] at hl
    rw [orderedInsert_cons]
    split
    · -- in front of `b`, and with it of everything that follows
      rename_i hab
      refine pairwise_cons.mpr ⟨fun y hy => ?_, pairwise_cons.mpr hl⟩
      rcases mem_cons.mp hy with rfl | hy
      · exact hafter y mem_cons_self hab
      · have hbl := mem_cons_of_mem b hy
        exact hafter y hbl (hmono b mem_cons_self y hbl hab (hl.1 y hy))
    · rename_i hab
      refine pairwise_cons.mpr ⟨fun y hy => ?_, ih hl.2 ?_ ?_ ?_⟩
      · rcases (mem_orderedInsert r).mp hy with rfl | hy
        · exact hbefore b mem_cons_self hab
        · exact hl.1 y hy
      · exact fun x hx => hbefore x (mem_cons_of_mem b hx)
      · exact fun x hx => hafter x (mem_cons_of_mem b hx)
      · exact fun x hx y hy => hmono x (mem_cons_of_mem b hx) y (mem_cons_of_mem b hy)

end Libfsm.Lib
