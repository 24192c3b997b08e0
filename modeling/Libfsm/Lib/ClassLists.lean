import Mathlib.Data.List.Nodup
import Mathlib.Data.List.Perm.Basic
import Mathlib.Tactic

/-!
# Classes As Lists

The numbers below `n`, divided into classes that are kept as a list of lists.

- `Divides`: every number is in one class, and no class is empty
- `Together`: two numbers are in one class
- `Divides.split`, `together_split`: a class replaced by several
- `perm_swap`: classes that change places
-/

namespace Libfsm.Lib

open List hiding nil cons

variable {n : ℕ} {cs : List (List ℕ)}

/-- The classes divide the numbers below `n`. -/
structure Divides (n : ℕ) (cs : List (List ℕ)) : Prop where
  perm : cs.flatten.Perm (range n)
  nonempty : ∀ c ∈ cs, c ≠ []

/-- The two numbers are in one class. -/
def Together (cs : List (List ℕ)) (s t : ℕ) : Prop := ∃ c ∈ cs, s ∈ c ∧ t ∈ c

/-- Only the classes matter, not their order. -/
theorem together_congr {cs' : List (List ℕ)} (h : cs.Perm cs') (s t : ℕ) :
    Together cs s t ↔ Together cs' s t := by
  unfold Together
  simp only [h.mem_iff]

namespace Divides

section

variable (h : Divides n cs)
include h

theorem congr {cs' : List (List ℕ)} (hperm : cs'.Perm cs) : Divides n cs' :=
  ⟨hperm.flatten.trans h.perm, fun c hc => h.nonempty c (hperm.mem_iff.mp hc)⟩

theorem nodup : cs.flatten.Nodup := h.perm.nodup_iff.mpr nodup_range

theorem exists_mem_iff {s : ℕ} : (∃ c ∈ cs, s ∈ c) ↔ s < n := by
  rw [← mem_flatten, h.perm.mem_iff, mem_range]

theorem lt {c : List ℕ} (hc : c ∈ cs) {s : ℕ} (hs : s ∈ c) : s < n :=
  h.exists_mem_iff.mp ⟨c, hc, hs⟩

theorem class_nodup {c : List ℕ} (hc : c ∈ cs) : c.Nodup :=
  (nodup_flatten.mp h.nodup).1 c hc

/-- No number is in two classes. -/
theorem index_eq {i j : ℕ} {c d : List ℕ} (hi : cs[i]? = some c)
    (hj : cs[j]? = some d) {s : ℕ} (hs : s ∈ c) (hs' : s ∈ d) : i = j := by
  have hpair := (nodup_flatten.mp h.nodup).2
  obtain ⟨hlti, rfl⟩ := List.getElem?_eq_some_iff.mp hi
  obtain ⟨hltj, rfl⟩ := List.getElem?_eq_some_iff.mp hj
  rcases lt_trichotomy i j with hlt | heq | hlt
  · have hdisj := pairwise_iff_getElem.mp hpair i j hlti hltj hlt
    exact absurd hs' (disjoint_left.mp hdisj hs)
  · exact heq
  · have hdisj := pairwise_iff_getElem.mp hpair j i hltj hlti hlt
    exact absurd hs (disjoint_left.mp hdisj hs')

theorem class_eq {c d : List ℕ} (hc : c ∈ cs) (hd : d ∈ cs) {s : ℕ}
    (hs : s ∈ c) (hs' : s ∈ d) : c = d := by
  obtain ⟨i, hi⟩ := mem_iff_getElem?.mp hc
  obtain ⟨j, hj⟩ := mem_iff_getElem?.mp hd
  have hij := h.index_eq hi hj hs hs'
  rw [hij, hj] at hi
  exact (Option.some.inj hi).symm

/-- There are no more classes than numbers. -/
theorem length_le : cs.length ≤ n := by
  have hsum : ∀ l : List (List ℕ), (∀ c ∈ l, c ≠ []) → l.length ≤ l.flatten.length := by
    intro l
    induction l with
    | nil => exact fun _ => le_rfl
    | cons c l ih =>
      intro hne
      have hc : 0 < c.length := length_pos_iff.mpr (hne c mem_cons_self)
      have ih := ih fun d hd => hne d (mem_cons_of_mem c hd)
      rw [flatten_cons, length_append, length_cons]
      omega
  have hle := hsum cs h.nonempty
  rwa [h.perm.length_eq, length_range] at hle

end

end Divides

/-! ## §1 Splitting -/

section Split

variable {i : ℕ} {c kept : List ℕ} {news : List (List ℕ)}

theorem flatten_set_append (hi : cs[i]? = some c) (hperm : (kept ++ news.flatten).Perm c) :
    (cs.set i kept ++ news).flatten.Perm cs.flatten := by
  obtain ⟨hlt, rfl⟩ := List.getElem?_eq_some_iff.mp hi
  have hcs : cs = cs.take i ++ cs[i] :: cs.drop (i + 1) := by
    rw [cons_getElem_drop_succ, take_append_drop]
  have hset : (cs.set i kept ++ news).flatten =
      (cs.take i).flatten ++ (kept ++ ((cs.drop (i + 1)).flatten ++ news.flatten)) := by
    rw [set_eq_take_append_cons_drop, if_pos hlt]
    simp
  have hold : cs.flatten = (cs.take i).flatten ++ (cs[i] ++ (cs.drop (i + 1)).flatten) := by
    rw [← flatten_cons, ← flatten_append, ← hcs]
  rw [hset, hold]
  apply List.Perm.append_left
  calc kept ++ ((cs.drop (i + 1)).flatten ++ news.flatten)
      _ |>.Perm (kept ++ (news.flatten ++ (cs.drop (i + 1)).flatten)) :=
        List.Perm.append_left _ perm_append_comm
      _ |>.Perm (cs[i] ++ (cs.drop (i + 1)).flatten) := by
        rw [← append_assoc]
        exact hperm.append_right _

/-- One of the classes gets one number more. -/
theorem flatten_modify_perm {f : List ℕ → List ℕ} {s : ℕ} (hi : cs[i]? = some c)
    (hf : (f c).Perm (s :: c)) : (cs.modify i f).flatten.Perm (s :: cs.flatten) := by
  obtain ⟨hlt, hval⟩ := List.getElem?_eq_some_iff.mp hi
  have hcs : cs = cs.take i ++ c :: cs.drop (i + 1) := by
    rw [← hval, cons_getElem_drop_succ, take_append_drop]
  rw [modify_eq_take_cons_drop hlt, hval]
  conv_rhs => rw [hcs]
  simp only [flatten_append, flatten_cons]
  exact ((hf.append_right _).append_left _).trans perm_middle

/-- **A class is split.** -/
theorem Divides.split (h : Divides n cs) (hi : cs[i]? = some c)
    (hperm : (kept ++ news.flatten).Perm c) (hkept : kept ≠ []) (hnews : ∀ d ∈ news, d ≠ []) :
    Divides n (cs.set i kept ++ news) := by
  refine ⟨(flatten_set_append hi hperm).trans h.perm, fun d hd => ?_⟩
  rcases mem_append.mp hd with hd | hd
  · rcases mem_or_eq_of_mem_set hd with hd | rfl
    · exact h.nonempty d hd
    · exact hkept
  · exact hnews d hd

/-- Numbers are still together if they were before and go to the same part. -/
theorem together_split (h : Divides n cs) (hi : cs[i]? = some c)
    (hperm : (kept ++ news.flatten).Perm c) (s t : ℕ) :
    Together (cs.set i kept ++ news) s t ↔
      Together cs s t ∧ (s ∈ c → Together (kept :: news) s t) := by
  have hlt : i < cs.length := (List.getElem?_eq_some_iff.mp hi).1
  have hpart : ∀ d ∈ kept :: news, ∀ r ∈ d, r ∈ c := by
    intro d hd r hr
    apply hperm.mem_iff.mp
    rcases mem_cons.mp hd with rfl | hd
    · exact mem_append_left _ hr
    · exact mem_append_right _ (mem_flatten.mpr ⟨d, hd, hr⟩)
  have hc : c ∈ cs := mem_of_getElem? hi
  constructor
  · intro ⟨d, hd, hs, ht⟩
    -- either `d` is one of the parts, or a class that stays
    have hcase : d ∈ kept :: news ∨ ∃ j, j ≠ i ∧ cs[j]? = some d := by
      rcases mem_append.mp hd with hd | hd
      · obtain ⟨j, hj⟩ := mem_iff_getElem?.mp hd
        rw [getElem?_set] at hj
        split at hj
        · exact .inl (mem_cons.mpr (.inl (Option.some.inj hj).symm))
        · rename_i hji
          exact .inr ⟨j, Ne.symm hji, hj⟩
      · exact .inl (mem_cons_of_mem _ hd)
    rcases hcase with hd | ⟨j, hji, hj⟩
    · exact ⟨⟨c, hc, hpart d hd s hs, hpart d hd t ht⟩, fun _ => ⟨d, hd, hs, ht⟩⟩
    · refine ⟨⟨d, mem_of_getElem? hj, hs, ht⟩, fun hsc => ?_⟩
      exact absurd (h.index_eq hj hi hs hsc) hji
  · intro ⟨⟨d, hd, hs, ht⟩, hsplit⟩
    by_cases hsc : s ∈ c
    · obtain ⟨e, he, hs', ht'⟩ := hsplit hsc
      rcases mem_cons.mp he with rfl | he
      · exact ⟨e, mem_append_left _ (mem_set hlt e), hs', ht'⟩
      · exact ⟨e, mem_append_right _ he, hs', ht'⟩
    · obtain ⟨j, hj⟩ := mem_iff_getElem?.mp hd
      have hji : i ≠ j := by
        rintro rfl
        rw [hi] at hj
        exact hsc ((Option.some.inj hj).symm ▸ hs)
      refine ⟨d, mem_append_left _ (mem_of_getElem? (i := j) ?_), hs, ht⟩
      rw [getElem?_set_ne hji, hj]

end Split

/-! ## §2 Changing Places -/

/-- Two entries of a list change places. -/
theorem perm_swap {α : Type*} {l : List α} {i j : ℕ} {a b : α} (hi : l[i]? = some a)
    (hj : l[j]? = some b) : ((l.set i b).set j a).Perm l := by
  obtain ⟨hlti, rfl⟩ := List.getElem?_eq_some_iff.mp hi
  obtain ⟨hltj, rfl⟩ := List.getElem?_eq_some_iff.mp hj
  have hswap : (l.toArray.swap i j hlti hltj).Perm l.toArray := Array.swap_perm hlti hltj
  have hlist := Array.perm_iff_toList_perm.mp hswap
  rwa [Array.toList_swap] at hlist

end Libfsm.Lib
