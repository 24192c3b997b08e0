import Libfsm.Re.Trie
import Mathlib.Data.Finset.Card
import Mathlib.Data.Finset.Range
import Mathlib.Data.List.FinRange

/-!
# Failure Edges

The failure edges of `libre/ac.c`, which turn a trie into a machine that looks for all strings
at once.

- `trieAddFailureEdges`: the breadth-first pass that sets `fail` and passes `output` on
- `findNextState`: the state to go to on a symbol
- `Marked`: the prefixes that end up with an output
- `FailureInv`: what holds while the pass works on one level of the trie
- `FailureLinked`: what the pass leaves behind

The pass passes on the output of the state whose child the failure edge leads to, not the
output of that child, which is why `Marked` is not "some string is a suffix".
-/

namespace Libfsm

open Lib
open List hiding count nil cons

variable {E : List TrieEntry} {c : Byte} {fuel n st : ℕ} {A : List ℕ}

/-! ## §1 The Pass And The Moves -/

/-- The inner `while` loop of `trie_add_failure_edges`: up the failure edges to a state with a
child on `sym`, or to the root. -/
def failureStem (g : TrieGraph) (sym : Byte) : ℕ → ℕ → ℕ
  | 0, fs => fs
  | fuel + 1, fs =>
    if (g.state fs).children sym = none ∧ fs ≠ 0 then
      failureStem g sym fuel ((g.state fs).fail.getD 0)
    else fs

/-- The body of the loop over the symbols: the child's failure edge and output, and its place
in the queue. -/
def failureChild (st : ℕ) (p : TrieGraph × List ℕ) (sym : Byte) : TrieGraph × List ℕ :=
  match (p.1.state st).children sym with
  | none => p
  | some nx =>
    let fs := failureStem p.1 sym (p.1.depth + 1) ((p.1.state st).fail.getD 0)
    (p.1.modify nx fun s =>
      { s with
        fail := some (((p.1.state fs).children sym).getD fs)
        -- the output of `fs`, although the failure edge leads to its child
        output := s.output || (p.1.state fs).output }, p.2 ++ [nx])

/-- The breadth-first loop of `trie_add_failure_edges`. -/
def failureLoop : ℕ → TrieGraph → List ℕ → TrieGraph
  -- every state is taken from the queue once, so the fuel is the number of states
  | 0, g, _ => g
  | _ + 1, g, [] => g
  | fuel + 1, g, st :: q =>
    let (g, q) := (finRange 256).foldl (failureChild st) (g, q)
    failureLoop fuel g q

/-- The first loop of `trie_add_failure_edges`: the root's children fail to the root. -/
def failureRoot (p : TrieGraph × List ℕ) (sym : Byte) : TrieGraph × List ℕ :=
  match (p.1.state 0).children sym with
  | none => p
  | some st => (p.1.modify st fun s => { s with fail := some 0 }, p.2 ++ [st])

def trieAddFailureEdges (g : TrieGraph) : TrieGraph :=
  let (g, q) := (finRange 256).foldl failureRoot (g, [])
  (failureLoop g.nstates g q).modify 0 fun s => { s with fail := some 0 }

/-- The loop of `find_next_state` over the failure edges. -/
def findNextStateLoop (g : TrieGraph) (sym : Byte) : ℕ → ℕ → ℕ
  | 0, fail => fail
  | fuel + 1, fail =>
    match (g.state fail).children sym with
    | some nx => nx
    | none =>
      if (g.state fail).fail = some fail then fail
      else findNextStateLoop g sym fuel ((g.state fail).fail.getD 0)

def findNextState (g : TrieGraph) (s : ℕ) (sym : Byte) : Option ℕ :=
  match (g.state s).children sym with
  | some nx => some nx
  | none => (g.state s).fail.map (findNextStateLoop g sym (g.depth + 1))

/-! ## §2 What The Pass Leaves Behind -/

/-- The prefixes whose states get an output in the failure pass.  A prefix of two or more
symbols takes the output of its border without the border's last symbol. -/
inductive Marked (E : List TrieEntry) : List Byte → Prop
  | word {u : List Byte} : Listed E u → Marked E u
  | stem {u : List Byte} : 2 ≤ u.length → Marked E (border (Node E) u).dropLast → Marked E u

theorem marked_iff {u : List Byte} :
    Marked E u ↔ Listed E u ∨ 2 ≤ u.length ∧ Marked E (border (Node E) u).dropLast := by
  constructor
  · intro h
    cases h with
    | word h => exact .inl h
    | stem hlen h => exact .inr ⟨hlen, h⟩
  · rintro (h | ⟨hlen, h⟩)
    · exact .word h
    · exact .stem hlen h

/-- A trie with failure edges: each leads to the longest proper suffix that is a state. -/
structure FailureLinked (g : TrieGraph) (E : List TrieEntry) (path : ℕ → List Byte) : Prop where
  tree : Tree g (Node E) path
  output : ∀ n < g.nstates, (g.state n).output = true ↔ Marked E (path n)
  endids : ∀ n < g.nstates, ∀ i, i ∈ (g.state n).endids ↔ (path n, some i) ∈ E
  fail : ∀ n < g.nstates, ∃ m < g.nstates,
    (g.state n).fail = some m ∧ path m = border (Node E) (path n)
  depth : ∀ n < g.nstates, (path n).length ≤ g.depth

/-- The pass at work on the states of depth `d`.  The states of depth at most `d` are
finished, and so are those of depth `d + 1` in `B`; the edges in `left` are still to be
followed. -/
structure FailureInv (E : List TrieEntry) (N : ℕ) (g : TrieGraph) (path : ℕ → List Byte) (d : ℕ)
    (B : List ℕ) (left : ℕ → Byte → Prop) : Prop where
  count : g.nstates = N
  tree : Tree g (Node E) path
  endids : ∀ n < N, ∀ i, i ∈ (g.state n).endids ↔ (path n, some i) ∈ E
  depth : ∀ n < N, (path n).length ≤ g.depth
  near : ∀ n < N, (path n).length ≤ d ∨ n ∈ B → ((g.state n).output = true ↔ Marked E (path n))
  far : ∀ n < N, d < (path n).length → n ∉ B →
    ((g.state n).output = true ↔ Listed E (path n))
  fail : ∀ n < N, n ≠ 0 → (path n).length ≤ d ∨ n ∈ B → ∃ m < N,
    (g.state n).fail = some m ∧ path m = border (Node E) (path n)
  level : ∀ n ∈ B, n < N ∧ (path n).length = d + 1
  edge : ∀ p < N, (path p).length = d → ∀ c n, (g.state p).children c = some n →
    (n ∈ B ↔ ¬ left p c)
  nodup : B.Nodup

namespace FailureInv

variable {E : List TrieEntry} {N : ℕ} {g : TrieGraph} {path : ℕ → List Byte} {d : ℕ}
  {B : List ℕ} {left left' : ℕ → Byte → Prop}

theorem congr (h : FailureInv E N g path d B left)
    (hleft : ∀ p < N, (path p).length = d → ∀ c n, (g.state p).children c = some n →
      (left p c ↔ left' p c)) : FailureInv E N g path d B left' :=
  { h with
    edge := fun p hp hd c n hn => (h.edge p hp hd c n hn).trans (not_congr (hleft p hp hd c n hn)) }

/-- Finishing one child: its failure edge and its output are written. -/
theorem link (h : FailureInv E N g path d B left) {p nx m : ℕ} {o : Bool} (hp : p < N)
    (hd : (path p).length = d) (hnx : (g.state p).children c = some nx) (hleft : left p c)
    (hm : m < N) (hborder : path m = border (Node E) (path nx))
    (ho : ((g.state nx).output || o) = true ↔ Marked E (path nx)) :
    FailureInv E N
      (g.modify nx fun s => { s with fail := some m, output := s.output || o }) path d
      (B ++ [nx]) fun q e => left q e ∧ ¬ (q = p ∧ e = c) := by
  have hcount := h.count
  obtain ⟨hnxlt, hpath⟩ := (h.tree.child p (hcount ▸ hp) c nx).mp hnx
  have hstate := TrieGraph.state_modify hnxlt
    fun s => { s with fail := some m, output := s.output || o }
  have hchildren : ∀ n, ((g.modify nx fun s =>
      { s with fail := some m, output := s.output || o }).state n).children =
      (g.state n).children := by
    intro n
    rw [hstate]
    split
    · rename_i hn
      rw [hn]
    · rfl
  have hlen : (path nx).length = d + 1 := by
    rw [hpath, length_append, hd]
    rfl
  -- the child was not finished before
  have hnew : nx ∉ B := fun hmem => (h.edge p hp hd c nx hnx).mp hmem hleft
  have hback : ∀ {n}, (path n).length ≤ d ∨ n ∈ B ++ [nx] → n ≠ nx →
      (path n).length ≤ d ∨ n ∈ B := fun hnear hne =>
    hnear.imp_right fun hn => (mem_append.mp hn).resolve_right fun h' => hne (mem_singleton.mp h')
  refine ⟨(g.nstates_modify nx _).trans hcount,
    h.tree.of_children (g.nstates_modify nx _) hchildren,
    ?_, h.depth, ?_, ?_, ?_, ?_, ?_, ?_⟩
  · intro n hn i
    rw [← h.endids n hn, hstate]
    split
    · rename_i hn'
      rw [hn']
    · rfl
  · intro n hn hnear
    rw [hstate]
    split
    · rename_i hn'
      rw [hn']
      exact ho
    · rename_i hn'
      exact h.near n hn (hback hnear hn')
  · intro n hn hfar hB
    have hn' : n ≠ nx := fun h' => hB (mem_append_right _ (mem_singleton.mpr h'))
    rw [hstate, if_neg hn']
    exact h.far n hn hfar fun h' => hB (mem_append_left _ h')
  · intro n hn h0 hnear
    rw [hstate]
    split
    · rename_i hn'
      rw [hn']
      exact ⟨m, hm, rfl, hborder⟩
    · rename_i hn'
      exact h.fail n hn h0 (hback hnear hn')
  · intro n hn
    rcases mem_append.mp hn with hn | hn
    · exact h.level n hn
    · rw [mem_singleton.mp hn]
      exact ⟨hcount ▸ hnxlt, hlen⟩
  · intro q hq hdq e n hn
    rw [hchildren] at hn
    rw [mem_append, List.mem_singleton, h.edge q hq hdq e n hn]
    -- a state is the child of one state on one symbol only
    have hchild : n = nx ↔ q = p ∧ e = c := by
      obtain ⟨hnlt, hpath'⟩ := (h.tree.child q (hcount ▸ hq) e n).mp hn
      constructor
      · rintro rfl
        rw [hpath'] at hpath
        obtain ⟨hqp, hec⟩ := append_inj' hpath rfl
        exact ⟨h.tree.inj q (hcount ▸ hq) p (hcount ▸ hp) hqp, by simpa using hec⟩
      · rintro ⟨rfl, rfl⟩
        exact Option.some.inj (hn.symm.trans hnx)
    tauto
  · exact concat_eq_append ▸ h.nodup.concat hnew

/-- The walk up the failure edges ends at a state that can grow by `c`, or at the root, and
the longest suffix after `c` is the same from there. -/
theorem failureStem_spec (h : FailureInv E N g path d B left) (c : Byte) {fs : ℕ} (hfs : fs < N)
    (hd : (path fs).length ≤ d) (hfuel : (path fs).length < fuel) :
    failureStem g c fuel fs < N ∧ (path (failureStem g c fuel fs)).length ≤ d ∧
      ((g.state (failureStem g c fuel fs)).children c = none →
        path (failureStem g c fuel fs) = []) ∧
      longestSuffix (Node E) (path (failureStem g c fuel fs) ++ [c]) =
        longestSuffix (Node E) (path fs ++ [c]) := by
  induction fuel generalizing fs with
  | zero => cases hfuel
  | succ fuel ih =>
    rw [failureStem]
    split
    · rename_i hup
      obtain ⟨hnone, hne⟩ := hup
      -- the failure edge leads to the border, which is shorter
      obtain ⟨m, hm, hfail, hpath⟩ := h.fail fs hfs hne (.inl hd)
      have hroot : path fs ≠ [] := fun h0 => hne ((h.tree.eq_root (h.count ▸ hfs)).mpr h0)
      have hlt := length_border_lt (Node E) hroot
      rw [← hpath] at hlt
      rw [hfail]
      obtain ⟨h₁, h₂, h₃, h₄⟩ :=
        ih hm (le_of_lt (lt_of_lt_of_le hlt hd)) (by omega)
      refine ⟨h₁, h₂, h₃, h₄.trans ?_⟩
      have hc := (h.tree.child_eq_none (h.count ▸ hfs)).mp hnone
      rw [hpath, ← (prefixClosed_node E).longestSuffix_append_of_notMem hroot hc]
    · rename_i hstop
      refine ⟨hfs, hd, ?_, rfl⟩
      intro hnone
      have h0 : fs = 0 := by
        by_contra hne
        exact hstop ⟨hnone, hne⟩
      rw [h0]
      exact h.tree.root

/-- The body of the symbol loop, for a state that is not the root. -/
theorem failureChild_spec (h : FailureInv E N g path d B left) (hst : st < N)
    (hd : (path st).length = d) (hpos : 0 < d) (hleft : left st c) (q : List ℕ) :
    ∃ new, (failureChild st (g, q) c).2 = q ++ new ∧
      FailureInv E N (failureChild st (g, q) c).1 path d (B ++ new)
        fun p e => left p e ∧ ¬ (p = st ∧ e = c) := by
  have hT := prefixClosed_node E
  rcases hnx : (g.state st).children c with _ | nx
  · refine ⟨[], ?_, ?_⟩
    · simp [failureChild, hnx]
    · simp only [failureChild, hnx, append_nil]
      apply h.congr
      intro p _ _ e n hn
      refine ⟨fun hl => ⟨hl, ?_⟩, And.left⟩
      rintro ⟨rfl, rfl⟩
      rw [hnx] at hn
      cases hn
  · obtain ⟨hnxlt, hpath⟩ := (h.tree.child st (h.count ▸ hst) c nx).mp hnx
    have hne : path st ≠ [] := by
      intro h0
      rw [h0] at hd
      exact ne_of_lt hpos hd
    have hst0 : st ≠ 0 := fun h0 => hne ((h.tree.eq_root (h.count ▸ hst)).mp h0)
    obtain ⟨f, hf, hfail, hfpath⟩ := h.fail st hst hst0 (.inl (le_of_eq hd))
    have hflt : (path f).length < d := by
      rw [hfpath, ← hd]
      exact length_border_lt _ hne
    have hfuel : (path f).length < g.depth + 1 := Nat.lt_succ_of_le (h.depth f hf)
    obtain ⟨hr, hrd, hrnone, hrsuf⟩ := h.failureStem_spec c hf (le_of_lt hflt) hfuel
    have hstep : failureChild st (g, q) c = (g.modify nx fun s =>
        { s with
          fail := some (((g.state (failureStem g c (g.depth + 1) f)).children c).getD
            (failureStem g c (g.depth + 1) f))
          output := s.output || (g.state (failureStem g c (g.depth + 1) f)).output },
        q ++ [nx]) := by
      simp only [failureChild, hnx, hfail, Option.getD_some]
    generalize failureStem g c (g.depth + 1) f = r at *
    rw [hstep]
    -- the failure edge of the child, and the stem whose output it takes
    have hborder : border (Node E) (path nx) = longestSuffix (Node E) (path r ++ [c]) := by
      rw [hpath, hT.border_append_singleton hne, ← hfpath, hrsuf]
    have htarget : ((g.state r).children c).getD r < N ∧
        path (((g.state r).children c).getD r) = border (Node E) (path nx) ∧
        (border (Node E) (path nx)).dropLast = path r := by
      rw [hborder]
      rcases hchild : (g.state r).children c with _ | m
      · have hnot := (h.tree.child_eq_none (h.count ▸ hr)).mp hchild
        rw [hrnone hchild] at hnot ⊢
        rw [nil_append] at hnot ⊢
        rw [longestSuffix_cons, if_neg hnot]
        exact ⟨hr, hrnone hchild, rfl⟩
      · obtain ⟨hm, hmpath⟩ := (h.tree.child r (h.count ▸ hr) c m).mp hchild
        have hmem : Node E (path r ++ [c]) := hmpath ▸ h.tree.mem_path hm
        rw [longestSuffix_of_mem hmem]
        exact ⟨h.count ▸ hm, hmpath, dropLast_concat⟩
    obtain ⟨hm, hmpath, hstem⟩ := htarget
    refine ⟨[nx], rfl, h.link hst hd hnx hleft hm hmpath ?_⟩
    have hlen : (path nx).length = d + 1 := by
      rw [hpath, length_append, hd]
      rfl
    have hnewB : nx ∉ B := fun hmem => (h.edge st hst hd c nx hnx).mp hmem hleft
    rw [Bool.or_eq_true, h.far nx (h.count ▸ hnxlt) (by omega) hnewB,
      h.near r hr (.inl hrd), ← hstem]
    have h2 : 2 ≤ (path nx).length := by omega
    rw [marked_iff (u := path nx)]
    simp only [h2, true_and]

/-- The body of the first loop: a child of the root fails to the root. -/
theorem failureRoot_spec (h : FailureInv E N g path 0 B left) (hleft : left 0 c) (q : List ℕ) :
    ∃ new, (failureRoot (g, q) c).2 = q ++ new ∧
      FailureInv E N (failureRoot (g, q) c).1 path 0 (B ++ new)
        fun p e => left p e ∧ ¬ (p = 0 ∧ e = c) := by
  have hpos : 0 < N := h.count ▸ h.tree.pos
  rcases hnx : (g.state 0).children c with _ | nx
  · refine ⟨[], ?_, ?_⟩
    · simp [failureRoot, hnx]
    · simp only [failureRoot, hnx, append_nil]
      apply h.congr
      intro p _ _ e n hn
      refine ⟨fun hl => ⟨hl, ?_⟩, And.left⟩
      rintro ⟨rfl, rfl⟩
      rw [hnx] at hn
      cases hn
  · obtain ⟨hnxlt, hpath⟩ := (h.tree.child 0 h.tree.pos c nx).mp hnx
    rw [h.tree.root] at hpath
    have hroot : (path 0).length = 0 := by rw [h.tree.root, length_nil]
    have hnewB : nx ∉ B := fun hmem => (h.edge 0 hpos hroot c nx hnx).mp hmem hleft
    have hstep : failureRoot (g, q) c = (g.modify nx fun s =>
        { s with fail := some 0, output := s.output || false }, q ++ [nx]) := by
      simp only [failureRoot, hnx, Bool.or_false]
    rw [hstep]
    refine ⟨[nx], rfl, h.link hpos hroot hnx hleft hpos ?_ ?_⟩
    · rw [h.tree.root, hpath]
      rfl
    · have hnx' := h.far nx (h.count ▸ hnxlt) (by rw [hpath]; exact Nat.zero_lt_one) hnewB
      rw [Bool.or_false, hnx', marked_iff, hpath]
      simp

/-- A loop over symbols that handles one edge of `st` in each round handles them all. -/
theorem foldl_spec {F : TrieGraph × List ℕ → Byte → TrieGraph × List ℕ}
    (hF : ∀ {g B left c} (q : List ℕ), FailureInv E N g path d B left → left st c →
      ∃ new, (F (g, q) c).2 = q ++ new ∧ FailureInv E N (F (g, q) c).1 path d (B ++ new)
        fun p e => left p e ∧ ¬ (p = st ∧ e = c))
    {l : List Byte} (hl : l.Nodup) (h : FailureInv E N g path d B left)
    (hleft : ∀ c ∈ l, left st c) (q : List ℕ) :
    ∃ new, (l.foldl F (g, q)).2 = q ++ new ∧
      FailureInv E N (l.foldl F (g, q)).1 path d (B ++ new)
        fun p e => left p e ∧ ¬ (p = st ∧ e ∈ l) := by
  induction l generalizing g B left q with
  | nil =>
    refine ⟨[], (append_nil q).symm, ?_⟩
    rw [append_nil]
    exact h.congr fun p _ _ e _ _ => by simp
  | cons c l ih =>
    obtain ⟨hc, hl'⟩ := nodup_cons.mp hl
    obtain ⟨new₁, hq₁, hinv₁⟩ := hF q h (hleft c mem_cons_self)
    have hleft₁ : ∀ e ∈ l, left st e ∧ ¬ (st = st ∧ e = c) := by
      intro e he
      refine ⟨hleft e (mem_cons_of_mem c he), ?_⟩
      rintro ⟨-, rfl⟩
      exact hc he
    rw [foldl_cons]
    generalize F (g, q) c = r at *
    obtain ⟨g₁, q₁⟩ := r
    obtain ⟨new₂, hq₂, hinv₂⟩ := ih hl' hinv₁ hleft₁ q₁
    refine ⟨new₁ ++ new₂, ?_, ?_⟩
    · rw [hq₂, show q₁ = q ++ new₁ from hq₁, append_assoc]
    · rw [← append_assoc]
      apply hinv₂.congr
      intro p _ _ e _ _
      simp only [mem_cons, not_and, not_or]
      tauto

/-- Once no edge is left, the states of depth `d + 1` are all in `B`. -/
theorem mem_of_length (h : FailureInv E N g path d B fun _ _ => False) (hn : n < N)
    (hlen : (path n).length = d + 1) : n ∈ B := by
  have hne : path n ≠ [] := by
    intro h0
    rw [h0] at hlen
    exact absurd hlen.symm (Nat.succ_ne_zero d)
  obtain ⟨p, hp, c, hpath, hchild⟩ :=
    h.tree.exists_parent (prefixClosed_node E) (h.count ▸ hn) hne
  have hd : (path p).length = d := by
    rw [hpath, length_append] at hlen
    exact Nat.succ.inj hlen
  exact (h.edge p (h.count ▸ hp) hd c n hchild).mpr not_false

/-- If there are none of depth `d + 1`, there are none further down. -/
theorem length_le (h : FailureInv E N g path d [] fun _ _ => False) (hn : n < N) :
    (path n).length ≤ d := by
  by_contra hlt
  obtain ⟨k, hk⟩ : ∃ k, (path n).length = d + 1 + k :=
    ⟨(path n).length - (d + 1), by omega⟩
  -- up from `n` to its ancestor of depth `d + 1`
  induction k generalizing n with
  | zero => exact absurd (h.mem_of_length hn hk) not_mem_nil
  | succ k ih =>
    have hne : path n ≠ [] := by
      intro h0
      rw [h0] at hk
      simp at hk
    obtain ⟨p, hp, c, hpath, -⟩ :=
      h.tree.exists_parent (prefixClosed_node E) (h.count ▸ hn) hne
    have hlen : (path p).length = d + 1 + k := by
      rw [hpath, length_append, length_singleton] at hk
      omega
    exact ih (h.count ▸ hp) (by omega) hlen

/-- The next level: once no edge is left, the states of depth `d + 1` are all finished. -/
theorem levelUp (h : FailureInv E N g path d B fun _ _ => False) :
    FailureInv E N g path (d + 1) [] fun p _ => p ∈ B := by
  have hB : ∀ n < N, (path n).length = d + 1 → n ∈ B := fun n => h.mem_of_length
  have hback : ∀ n < N, (path n).length ≤ d + 1 ∨ n ∈ [] → (path n).length ≤ d ∨ n ∈ B := by
    rintro n hn (hnear | hnear)
    · exact (Nat.le_succ_iff.mp hnear).imp_right (hB n hn)
    · cases hnear
  refine ⟨h.count, h.tree, h.endids, h.depth, ?_, ?_, ?_, ?_, ?_, nodup_nil⟩
  · exact fun n hn hnear => h.near n hn (hback n hn hnear)
  · intro n hn hfar _
    apply h.far n hn (Nat.lt_of_succ_lt hfar)
    intro hmem
    exact ne_of_gt hfar (h.level n hmem).2
  · exact fun n hn h0 hnear => h.fail n hn h0 (hback n hn hnear)
  · intro n hn
    cases hn
  · intro p hp hlen c n hn
    simp only [not_mem_nil, false_iff, not_not]
    exact hB p hp hlen

/-- All edges of one state at depth `d` are followed. -/
theorem foldl_failureChild (h : FailureInv E N g path d B fun p _ => p ∈ st :: A) (hst : st < N)
    (hd : (path st).length = d) (hpos : 0 < d) (hA : st ∉ A) (q : List ℕ) :
    ∃ new, ((finRange 256).foldl (failureChild st) (g, q)).2 = q ++ new ∧
      FailureInv E N ((finRange 256).foldl (failureChild st) (g, q)).1 path d (B ++ new)
        fun p _ => p ∈ A := by
  obtain ⟨new, hq, hinv⟩ := foldl_spec
    (fun q h hleft => h.failureChild_spec hst hd hpos hleft q) (nodup_finRange 256) h
    (fun _ _ => mem_cons_self) q
  refine ⟨new, hq, hinv.congr ?_⟩
  intro p _ _ e _ _
  simp only [mem_cons, mem_finRange, and_true]
  constructor
  · rintro ⟨hp, hne⟩
    exact hp.resolve_left hne
  · intro hp
    refine ⟨.inr hp, ?_⟩
    rintro rfl
    exact hA hp

/-- The states that the loop has still to take from the queue. -/
def waiting (N : ℕ) (path : ℕ → List Byte) (d : ℕ) (A : List ℕ) : Finset ℕ :=
  (Finset.range N).filter fun n => n ∈ A ∨ d < (path n).length

theorem card_waiting_cons (hst : st < N) (hd : (path st).length = d) (hA : st ∉ A) :
    (waiting N path d A).card < (waiting N path d (st :: A)).card := by
  apply Finset.card_lt_card
  refine Finset.ssubset_iff_of_subset ?_ |>.mpr ⟨st, ?_, ?_⟩
  · intro n hn
    simp only [waiting, Finset.mem_filter, mem_cons] at hn ⊢
    exact ⟨hn.1, hn.2.imp_left .inr⟩
  · simp [waiting, hst]
  · simp [waiting, hst, hA, hd]

/-- The breadth-first loop finishes every state.  The queue holds the states `A` of depth `d`
and then the states `B` of depth `d + 1`. -/
theorem failureLoop_spec (h : FailureInv E N g path d B fun p _ => p ∈ A)
    (hA : ∀ n ∈ A, n < N ∧ (path n).length = d) (hnodup : A.Nodup) (hpos : 0 < d)
    (hfuel : (waiting N path d A).card ≤ fuel) :
    ∃ d', FailureInv E N (failureLoop fuel g (A ++ B)) path d' [] fun _ _ => False := by
  induction fuel generalizing g d A B with
  | zero =>
    have hempty : waiting N path d A = ∅ := Finset.card_eq_zero.mp (Nat.le_zero.mp hfuel)
    have hnone : ∀ n < N, ¬ (n ∈ A ∨ d < (path n).length) := by
      intro n hn hw
      have hmem : n ∈ waiting N path d A := Finset.mem_filter.mpr ⟨Finset.mem_range.mpr hn, hw⟩
      rw [hempty] at hmem
      exact Finset.notMem_empty n hmem
    have hA0 : A = [] := eq_nil_iff_forall_not_mem.mpr fun n hn =>
      hnone n (hA n hn).1 (.inl hn)
    have hB0 : B = [] := eq_nil_iff_forall_not_mem.mpr fun n hn => by
      obtain ⟨hlt, hlen⟩ := h.level n hn
      exact hnone n hlt (.inr (by omega))
    subst hA0 hB0
    exact ⟨d, h.congr fun p _ _ c n _ => by simp⟩
  | succ fuel ih =>
    -- one round, with a state of depth `d` at the head of the queue
    have hround : ∀ {g d B st A}, FailureInv E N g path d B (fun p _ => p ∈ st :: A) →
        (∀ n ∈ st :: A, n < N ∧ (path n).length = d) → (st :: A).Nodup → 0 < d →
        (waiting N path d (st :: A)).card ≤ fuel + 1 →
        ∃ d', FailureInv E N (failureLoop (fuel + 1) g (st :: (A ++ B))) path d' []
          fun _ _ => False := by
      intro g d B st A h hA hnodup hpos hfuel
      obtain ⟨hstlt, hstlen⟩ := hA st mem_cons_self
      obtain ⟨hst, hnodup'⟩ := nodup_cons.mp hnodup
      obtain ⟨new, hq, hinv⟩ := h.foldl_failureChild hstlt hstlen hpos hst (A ++ B)
      have hlt := card_waiting_cons (N := N) hstlt hstlen hst
      rw [failureLoop]
      dsimp only at *
      rw [hq, append_assoc]
      exact ih hinv (fun n hn => hA n (mem_cons_of_mem st hn)) hnodup' hpos (by omega)
    cases A with
    | cons st A => exact hround h hA hnodup hpos hfuel
    | nil =>
      have hleft : FailureInv E N g path d B fun _ _ => False :=
        h.congr fun p _ _ c n _ => by simp
      cases B with
      | nil => exact ⟨d, hleft⟩
      | cons st B =>
        have hcard : (waiting N path (d + 1) (st :: B)).card ≤ fuel + 1 := by
          apply le_trans (Finset.card_le_card ?_) hfuel
          intro n hn
          simp only [waiting, Finset.mem_filter] at hn ⊢
          refine ⟨hn.1, .inr ?_⟩
          rcases hn.2 with hmem | hlen
          · rw [(h.level n hmem).2]
            exact Nat.lt_succ_self d
          · exact Nat.lt_of_succ_lt hlen
        have := hround hleft.levelUp h.level h.nodup (Nat.succ_pos d) hcard
        rwa [append_nil] at this

end FailureInv

/-- Before the first loop, the root alone is finished. -/
theorem Spells.failureInv {g : TrieGraph} {path : ℕ → List Byte} (h : Spells g E path) :
    FailureInv E g.nstates g path 0 [] fun _ _ => True := by
  have hmarked : ∀ u : List Byte, u.length ≤ 0 → (Marked E u ↔ Listed E u) := by
    intro u hu
    rw [marked_iff]
    exact or_iff_left fun h2 => by omega
  refine ⟨rfl, h.tree, h.endids, fun n => h.length_path_le, ?_, ?_, ?_, ?_, ?_, nodup_nil⟩
  · intro n hn hnear
    rcases hnear with hnear | hnear
    · rw [h.output n hn, hmarked _ hnear]
    · cases hnear
  · intro n hn _ _
    exact h.output n hn
  · intro n hn h0 hnear
    rcases hnear with hnear | hnear
    · exact absurd ((h.tree.eq_root hn).mpr (length_eq_zero_iff.mp (Nat.le_zero.mp hnear))) h0
    · cases hnear
  · intro n hn
    cases hn
  · simp

/-- After the loop only the root's failure edge is missing. -/
theorem FailureInv.linked {N d : ℕ} {g : TrieGraph} {path : ℕ → List Byte}
    (h : FailureInv E N g path d [] fun _ _ => False) :
    FailureLinked (g.modify 0 fun s => { s with fail := some 0 }) E path := by
  have hcount := (g.nstates_modify 0 fun s => { s with fail := some 0 }).trans h.count
  have hstate := TrieGraph.state_modify h.tree.pos fun s => { s with fail := some 0 }
  have hnear : ∀ n < N, (path n).length ≤ d := fun n => h.length_le
  refine ⟨h.tree.of_children (g.nstates_modify 0 _) fun n => ?_, ?_, ?_, ?_, ?_⟩
  · rw [hstate]
    split
    · rename_i hn'
      rw [hn']
    · rfl
  all_goals rw [hcount]
  · intro n hn
    rw [← h.near n hn (.inl (hnear n hn)), hstate]
    split
    · rename_i hn'
      rw [hn']
    · rfl
  · intro n hn i
    rw [← h.endids n hn, hstate]
    split
    · rename_i hn'
      rw [hn']
    · rfl
  · intro n hn
    rw [hstate]
    split
    · rename_i hn'
      rw [hn', h.tree.root]
      exact ⟨0, h.count ▸ h.tree.pos, rfl, h.tree.root⟩
    · rename_i hn'
      exact h.fail n hn hn' (.inl (hnear n hn))
  · exact h.depth

theorem Spells.linked {g : TrieGraph} {path : ℕ → List Byte} (h : Spells g E path) :
    FailureLinked (trieAddFailureEdges g) E path := by
  obtain ⟨B, hq, hinv⟩ := FailureInv.foldl_spec
    (fun q h hleft => h.failureRoot_spec hleft q) (nodup_finRange 256) h.failureInv
    (fun _ _ => trivial) []
  -- no state but the root has depth 0
  have hinv' : FailureInv E g.nstates ((finRange 256).foldl failureRoot (g, [])).1 path 0 B
      fun _ _ => False := by
    apply hinv.congr
    intro p hp hd c n _
    have hp0 : p = 0 := (h.tree.eq_root hp).mpr (length_eq_zero_iff.mp hd)
    simp [hp0]
  unfold trieAddFailureEdges
  generalize (finRange 256).foldl failureRoot (g, []) = r at *
  obtain ⟨g₁, q₁⟩ := r
  dsimp only at *
  subst hq
  have hcard : (FailureInv.waiting g.nstates path 1 q₁).card ≤ g₁.nstates := by
    rw [hinv'.count]
    exact (Finset.card_filter_le _ _).trans (le_of_eq (Finset.card_range _))
  obtain ⟨d, hfin⟩ := hinv'.levelUp.failureLoop_spec hinv'.level hinv'.nodup Nat.zero_lt_one hcard
  rw [append_nil] at hfin
  exact hfin.linked

/-! ## §3 The Moves -/

/-- Without failure edges the only moves are those to the children. -/
theorem Spells.findNextState_eq {g : TrieGraph} {path : ℕ → List Byte} (h : Spells g E path)
    (n : ℕ) (c : Byte) : findNextState g n c = (g.state n).children c := by
  unfold findNextState
  rw [h.fail]
  cases (g.state n).children c <;> rfl

namespace FailureLinked

variable {g : TrieGraph} {E : List TrieEntry} {path : ℕ → List Byte}

/-- The search for the next state, from a state on: it finds the longest suffix. -/
theorem findNextStateLoop_spec (h : FailureLinked g E path) (c : Byte) (hn : n < g.nstates)
    (hfuel : (path n).length < fuel) :
    findNextStateLoop g c fuel n < g.nstates ∧
      path (findNextStateLoop g c fuel n) = longestSuffix (Node E) (path n ++ [c]) := by
  have hT := prefixClosed_node E
  induction fuel generalizing n with
  | zero => cases hfuel
  | succ fuel ih =>
    rw [findNextStateLoop]
    rcases hchild : (g.state n).children c with _ | m
    · obtain ⟨m, hm, hfail, hpath⟩ := h.fail n hn
      have hnot := (h.tree.child_eq_none hn).mp hchild
      simp only [hfail, Option.some.injEq, Option.getD_some]
      split
      · -- only the root fails to itself
        rename_i hmn
        subst hmn
        have hroot : path m = [] := by
          by_contra hne
          have hlt := length_border_lt (Node E) hne
          rw [← hpath] at hlt
          exact lt_irrefl _ hlt
        rw [hroot] at hnot ⊢
        rw [nil_append] at hnot ⊢
        rw [longestSuffix_cons, if_neg hnot]
        exact ⟨hm, rfl⟩
      · rename_i hmn
        have hne : path n ≠ [] := by
          intro h0
          rw [h0] at hpath
          exact hmn (h.tree.inj m hm n hn (hpath.trans h0.symm))
        have hlt := length_border_lt (Node E) hne
        rw [← hpath] at hlt
        obtain ⟨h₁, h₂⟩ := ih hm (by omega)
        refine ⟨h₁, h₂.trans ?_⟩
        rw [hpath, hT.longestSuffix_append_of_notMem hne hnot]
    · obtain ⟨hm, hpath⟩ := (h.tree.child n hn c m).mp hchild
      have hmem : Node E (path n ++ [c]) := hpath ▸ h.tree.mem_path hm
      rw [longestSuffix_of_mem hmem]
      exact ⟨hm, hpath⟩

/-- With failure edges there is always a move: to the longest suffix that is a state. -/
theorem findNextState_spec (h : FailureLinked g E path) (hn : n < g.nstates) (c : Byte) :
    ∃ m < g.nstates, findNextState g n c = some m ∧
      path m = longestSuffix (Node E) (path n ++ [c]) := by
  have hT := prefixClosed_node E
  unfold findNextState
  rcases hchild : (g.state n).children c with _ | m
  · obtain ⟨f, hf, hfail, hpath⟩ := h.fail n hn
    have hnot := (h.tree.child_eq_none hn).mp hchild
    obtain ⟨h₁, h₂⟩ := h.findNextStateLoop_spec c hf (Nat.lt_succ_of_le (h.depth f hf))
    refine ⟨_, h₁, by rw [hfail, Option.map_some], h₂.trans ?_⟩
    by_cases hne : path n = []
    · rw [hpath, hne, border_nil]
    · rw [hpath, hT.longestSuffix_append_of_notMem hne hnot]
  · obtain ⟨hm, hpath⟩ := (h.tree.child n hn c m).mp hchild
    have hmem : Node E (path n ++ [c]) := hpath ▸ h.tree.mem_path hm
    exact ⟨m, hm, rfl, hpath.trans (longestSuffix_of_mem hmem).symm⟩

end FailureLinked

end Libfsm
