import Mathlib.Computability.Language

/-!
# State Elimination

A graph whose edges carry languages, and the removal of a state from it: what used to lead
through the state is added to the edges between its neighbours.

- `WordWalk`: the words along the walks of such a graph
- `eliminate`: the graph without a state
- `walk_eliminate_iff`: the walks between the other states spell the same words
- `walk_pair_iff`: the words of a graph in which only a start and an end state are left
-/

namespace Libfsm.Lib

open Computability Language

variable {α ι : Type*} {A B : ι → ι → Language α}

variable {p q s t : ι} {w : List α}

/-! ## §1 Walks -/

/-- `WordWalk A s w t`: `w` is spelled along a walk from `s` to `t`. -/
inductive WordWalk (A : ι → ι → Language α) (s : ι) : List α → ι → Prop
  | nil : WordWalk A s [] s
  | snoc {u v : List α} {t r : ι} : WordWalk A s u t → v ∈ A t r → WordWalk A s (u ++ v) r

theorem WordWalk.single (h : w ∈ A s t) : WordWalk A s w t := .snoc .nil h

theorem WordWalk.trans {r : ι} {u v : List α} (hu : WordWalk A s u t) (hv : WordWalk A t v r) :
    WordWalk A s (u ++ v) r := by
  induction hv with
  | nil => rwa [List.append_nil]
  | snoc _ hstep ih =>
    rw [← List.append_assoc]
    exact .snoc ih hstep

/-- A state may be passed any number of times along its own edge. -/
theorem WordWalk.of_mem_kstar (h : w ∈ (A s s)∗) : WordWalk A s w s := by
  obtain ⟨l, rfl, hl⟩ := mem_kstar.mp h
  clear h
  induction l with
  | nil => exact .nil
  | cons v l ih =>
    obtain ⟨hv, hl⟩ := List.forall_mem_cons.mp hl
    exact (WordWalk.single hv).trans (ih hl)

theorem append_mem_kstar {L : Language α} {u v : List α} (hu : u ∈ L∗) (hv : v ∈ L) :
    u ++ v ∈ L∗ := by
  have hle : L∗ * L ≤ L∗ := kstar_mul_le_kstar
  exact hle (append_mem_mul hu hv)

/-! ## §2 Elimination -/

section

variable [DecidableEq ι]

/-- The graph without the state `q`: a walk through `q` becomes a single edge. -/
def eliminate (A : ι → ι → Language α) (q p s : ι) : Language α :=
  if p = q ∨ s = q then 0 else A p s + A p q * (A q q)∗ * A q s

theorem mem_eliminate : w ∈ eliminate A q p s ↔
    p ≠ q ∧ s ≠ q ∧ (w ∈ A p s ∨ w ∈ A p q * (A q q)∗ * A q s) := by
  rw [eliminate]
  split
  · rename_i h
    refine iff_of_false (notMem_zero w) ?_
    rintro ⟨hp, hs, -⟩
    exact h.elim hp hs
  · rename_i h
    rw [not_or] at h
    rw [mem_add, and_iff_right h.1, and_iff_right h.2]

/-- How a walk that does not start at `q` gets along without it: as before if it ends elsewhere,
and up to the last time it came to `q` if it ends there. -/
private theorem WordWalk.eliminate (hp : p ≠ q) (h : WordWalk A p w t) :
    (t ≠ q → WordWalk (eliminate A q) p w t) ∧
      (t = q → ∃ r u v, r ≠ q ∧ WordWalk (Lib.eliminate A q) p u r ∧ v ∈ A r q * (A q q)∗ ∧
        w = u ++ v) := by
  induction h with
  | nil => exact ⟨fun _ => .nil, fun heq => absurd heq hp⟩
  | @snoc u v t r hwalk hstep ih =>
    by_cases ht : t = q
    · -- the walk stands at `q`: it stays there, or leaves it by an edge of the smaller graph
      subst ht
      obtain ⟨o, x, y, ho, hx, hy, rfl⟩ := ih.2 rfl
      refine ⟨fun hr => ?_, fun hr => ?_⟩
      · rw [List.append_assoc]
        exact .snoc hx (mem_eliminate.mpr ⟨ho, hr, Or.inr (append_mem_mul hy hstep)⟩)
      · subst hr
        obtain ⟨a, ha, b, hb, rfl⟩ := mem_mul.mp hy
        refine ⟨o, x, a ++ (b ++ v), ho, hx, ?_, by simp⟩
        exact append_mem_mul ha (append_mem_kstar hb hstep)
    · refine ⟨fun hr => ?_, fun hr => ?_⟩
      · exact .snoc (ih.1 ht) (mem_eliminate.mpr ⟨ht, hr, Or.inl hstep⟩)
      · subst hr
        refine ⟨t, u, v, ht, ih.1 ht, ?_, rfl⟩
        have hnil := append_mem_mul hstep (nil_mem_kstar (A r r))
        rwa [List.append_nil] at hnil

/-- Eliminating a state keeps the words between the other states. -/
theorem walk_eliminate_iff (hp : p ≠ q) (hs : s ≠ q) :
    WordWalk (eliminate A q) p w s ↔ WordWalk A p w s := by
  constructor
  · intro h
    clear hs
    induction h with
    | nil => exact .nil
    | snoc _ hstep ih =>
      refine ih.trans ?_
      obtain ⟨-, -, hdirect | hthrough⟩ := mem_eliminate.mp hstep
      · exact .single hdirect
      · obtain ⟨x, hx, c, hc, rfl⟩ := mem_mul.mp hthrough
        obtain ⟨a, ha, b, hb, rfl⟩ := mem_mul.mp hx
        have hstay : WordWalk A q b q := WordWalk.of_mem_kstar hb
        have hleave : WordWalk A q c _ := WordWalk.single hc
        exact ((WordWalk.single (A := A) ha).trans hstay).trans hleave
  · intro h
    exact (h.eliminate hp).1 hs

/-- No string is on an edge into or out of `q`. -/
def Isolated (A : ι → ι → Language α) (q : ι) : Prop := ∀ p w, w ∉ A q p ∧ w ∉ A p q

theorem isolated_eliminate (q : ι) : Isolated (eliminate A q) q :=
  fun _ _ => ⟨fun h => (mem_eliminate.mp h).1 rfl, fun h => (mem_eliminate.mp h).2.1 rfl⟩

theorem Isolated.eliminate {o : ι} (h : Isolated A o) (q : ι) : Isolated (eliminate A q) o := by
  refine fun p w => ⟨fun hw => ?_, fun hw => ?_⟩
  · obtain ⟨-, -, hdirect | hthrough⟩ := mem_eliminate.mp hw
    · exact (h p w).1 hdirect
    · obtain ⟨x, hx, -⟩ := mem_mul.mp hthrough
      obtain ⟨a, ha, -⟩ := mem_mul.mp hx
      exact (h q a).1 ha
  · obtain ⟨-, -, hdirect | hthrough⟩ := mem_eliminate.mp hw
    · exact (h p w).2 hdirect
    · obtain ⟨x, -, c, hc, -⟩ := mem_mul.mp hthrough
      exact (h q c).2 hc

end

/-! ## §3 The Last Two States -/

/-- If all edges leave `s`, for `s` itself or for `t`, the walks to `t` stay at `s` for a while and
then go to `t`. -/
theorem walk_pair_iff (hst : s ≠ t) (h : ∀ p r w, w ∈ A p r → p = s ∧ (r = s ∨ r = t)) :
    WordWalk A s w t ↔ w ∈ (A s s)∗ * A s t := by
  constructor
  · intro hwalk
    have hstay : ∀ {u r}, WordWalk A s u r → r = s → u ∈ (A s s)∗ := by
      intro u r hu
      induction hu with
      | nil => exact fun _ => nil_mem_kstar _
      | snoc _ hstep ih =>
        rintro rfl
        obtain ⟨rfl, -⟩ := h _ _ _ hstep
        exact append_mem_kstar (ih rfl) hstep
    cases hwalk with
    | nil => exact absurd rfl hst
    | snoc hu hstep =>
      obtain ⟨rfl, -⟩ := h _ _ _ hstep
      exact append_mem_mul (hstay hu rfl) hstep
  · intro hw
    obtain ⟨u, hu, v, hv, rfl⟩ := mem_mul.mp hw
    exact (WordWalk.of_mem_kstar hu).trans (.single hv)

end Libfsm.Lib
