import Libfsm.Ops.Equal
import Libfsm.Re.Ast

/-!
# Rewriting A Syntax Tree

The simplifications of `ast_rewrite.c`, made bottom up on a tree fresh from a parser: sequences and
alternatives are spliced into their parents, equal alternatives dropped, nested counts folded,
and what can never match becomes a tombstone.

- `rewriteConcat`, `rewriteAlt`, `rewriteRepeat`: one node, its children rewritten already
- `rewrite`: the whole tree
- `AstExpr.Rewritable`, `AstExpr.Flat`: what rewriting expects, and the shape it leaves
- `rewrite_spec`: the rewritten tree stands for the same strings
-/

namespace Libfsm

open Lib
open List hiding prev nil cons concat set isEmpty

variable {n : List AstExpr} {d e : AstExpr} {i : AstInfo} {hi lo : ℕ}

/-! ## §1 Model -/

namespace Rewrite

mutual

/-- `is_nullable` of `ast_rewrite.c` -/
def isNullable : AstExpr → Bool
  | .empty _ => true
  | .concat _ n => allNullable n
  | .alt _ n => anyNullable n
  | .repeated _ e min _ => min == 0 || isNullable e
  | .group _ e _ => isNullable e
  -- anchors match in context only, and of a subtraction nothing is known
  | .literal _ _ | .codepoint _ _ | .anchor _ _ _ | .subtract _ _ _ | .range _ _ _
  | .tombstone _ => false

def allNullable : List AstExpr → Bool
  | [] => true
  | e :: n => isNullable e && allNullable n

def anyNullable : List AstExpr → Bool
  | [] => false
  | e :: n => isNullable e || anyNullable n

end

end Rewrite

/-- The loop that eliminates anchors of the type of the anchor before them. -/
def dropRepeatedAnchors (prev : Option AstAnchorType) : List AstExpr → List AstExpr
  | [] => []
  | .anchor i t nl :: n =>
    if prev = some t then dropRepeatedAnchors prev n
    else .anchor i t nl :: dropRepeatedAnchors (some t) n
  | e :: n => e :: dropRepeatedAnchors none n

mutual

/-- What a child of a sequence is replaced by.  The children of a spliced sequence are looked at
again, so that no sequence remains. -/
def spliceConcat : AstExpr → List AstExpr
  | .concat _ n => spliceConcats n
  | e => [e]

/-- The loop of `rewrite_concat` that folds in sequences. -/
def spliceConcats : List AstExpr → List AstExpr
  | [] => []
  | e :: n => spliceConcat e ++ spliceConcats n

end

mutual

/-- What a child of an alternation is replaced by. -/
def spliceAlt : AstExpr → List AstExpr
  | .alt _ n => spliceAlts n
  | e => [e]

/-- The loop of `rewrite_alt` that folds in alternations. -/
def spliceAlts : List AstExpr → List AstExpr
  | [] => []
  | e :: n => spliceAlt e ++ spliceAlts n

end

def rewriteConcat (i : AstInfo) (n : List AstExpr) : AstExpr :=
  let n := dropRepeatedAnchors none n
  if n.any AstExpr.isTombstone then .tombstone i
  else
    match spliceConcats (n.filter fun e => !e.isEmpty) with
    | [] => .empty i
    | [e] => e
    | n => .concat i n

/-- The positions that stay, in the sorted list after an entry that stays. -/
def survivingAfter (last : AstExpr) : List (AstExpr × ℕ) → List ℕ
  | [] => []
  | p :: l =>
    if astExprCmp last p.1 = .eq then survivingAfter last l else p.2 :: survivingAfter p.1 l

/-- All but the first of each run of equal entries of the sorted list are dropped. -/
def surviving : List (AstExpr × ℕ) → List ℕ
  | [] => []
  | p :: l => p.2 :: survivingAfter p.1 l

/-- `deduplicate_alt`.  The positions of the children stand for the pointers to them. -/
def deduplicateAlt (n : List AstExpr) : List AstExpr :=
  let childCp := n.zipIdx.insertionSort fun p q => astExprCmp p.1 q.1 ≠ .gt
  ((n.zipIdx.filter fun p => p.2 ∈ surviving childCp).map Prod.fst)

def rewriteAlt (i : AstInfo) (n : List AstExpr) : AstExpr :=
  let n := spliceAlts n
  match if 1 < n.length then deduplicateAlt n else n with
  | [] => .empty i
  | [e] => e
  | n => .alt i n

def mulOverflow (x y : ℕ) : Bool := 2 ^ 32 ≤ x * y

/-- The counts of the repetition that `a{h,i}{j,k}` is folded into, if it is. -/
def foldCounts (h i j k : ℕ) : Option (ℕ × ℕ) :=
  let w := if i = astCountUnbounded ∨ k = astCountUnbounded then astCountUnbounded else i * k
  if mulOverflow h j then none
  else if i ≠ astCountUnbounded ∧ k ≠ astCountUnbounded ∧ mulOverflow i k then none
  else if 1 < h ∧ j ≠ k then
    if j = 0 then none
    else if i ≠ astCountUnbounded ∧
        (j = 2 ^ 32 - 1 ∨ mulOverflow h (j + 1) ∨ mulOverflow i j ∨ i * j < h * (j + 1) - 1) then
      none
    else some (h * j, w)
  else some (h * j, w)

def rewriteRepeat (i : AstInfo) (e : AstExpr) (min max : ℕ) : AstExpr :=
  if e.isEmpty then .empty i
  else if min = 0 ∧ max = 0 then .empty i
  else if min = 1 ∧ max = 1 then e
  else
    let min := if 0 < min ∧ Rewrite.isNullable e then 0 else min
    match e with
    | .repeated _ e' h k =>
      match foldCounts h k min max with
      | some (v, w) => .repeated i e' v w
      | none => .repeated i e min max
    | .tombstone _ => if min = 0 then .empty i else .tombstone i
    | _ => .repeated i e min max

/-- How an operand of a subtraction is analysed and compiled: the operand with the flags that
this leaves in it, and its FSM. -/
abbrev CompileSubexpr := AstExpr → Option (AstExpr × Fsm)

section

variable (compileSubexpr : CompileSubexpr)

def rewriteSubtract (i : AstInfo) (a b : AstExpr) : Option AstExpr :=
  (compileSubexpr a).bind fun (a, fa) =>
    (compileSubexpr b).bind fun (b, fb) =>
      (fsmSubtract fa fb).map fun q =>
        if (fsmEmpty q).1 ≠ 0 then .tombstone i else .subtract i a b

mutual

def rewrite : AstExpr → Option AstExpr
  | .concat i n => (rewriteAll n).map (rewriteConcat i)
  | .alt i n => (rewriteAll n).map (rewriteAlt i)
  | .repeated i e min max => (rewrite e).map fun e => rewriteRepeat i e min max
  | .group i e id =>
    (rewrite e).map fun e => if e.isTombstone then .tombstone i else .group i e id
  | .subtract i a b =>
    (rewrite a).bind fun a =>
      if a.isEmpty then some (.empty i)
      else (rewrite b).bind fun b => rewriteSubtract compileSubexpr i a b
  | e => some e

/-- The loop over the children of a node. -/
def rewriteAll : List AstExpr → Option (List AstExpr)
  | [] => some []
  | e :: n => (rewrite e).bind fun e => (rewriteAll n).map fun n => e :: n

end

end

/-! ## §2 Counts -/

/-- The larger bounded count of a repetition. -/
def boundedCount (min max : ℕ) : ℕ := if max = astCountUnbounded then min else max

namespace AstExpr

mutual

/-- The largest product of bounded counts along a chain of nested repetitions that starts at the top
of a tree. -/
def nestedCount : AstExpr → ℕ
  | .repeated _ e lo hi => boundedCount lo hi * max 1 (nestedCount e)
  | .concat _ n => nestedCounts n
  | .alt _ n => nestedCounts n
  -- a group is never rewritten away, so no chain of interest goes through one
  | _ => 0

def nestedCounts : List AstExpr → ℕ
  | [] => 0
  | e :: n => max (nestedCount e) (nestedCounts n)

end

theorem nestedCounts_le_iff {b : ℕ} : nestedCounts n ≤ b ↔ ∀ e ∈ n, e.nestedCount ≤ b := by
  induction n with
  | nil => simp [nestedCounts]
  | cons e n ih => simp [nestedCounts, ih]

theorem nestedCount_le_nestedCounts (he : e ∈ n) : e.nestedCount ≤ nestedCounts n :=
  nestedCounts_le_iff.mp le_rfl e he

/-- What the rewriting of a tree without anchors and subtractions relies on.  The counts are
those of `ast_make_expr_repeat`, and no product of nested ones is taken for unbounded. -/
structure Rewritable (e : AstExpr) : Prop where
  noAnchor : ∀ d ∈ e.nodes, d.isAnchor = false
  noSubtract : ∀ d ∈ e.nodes, d.isSubtract = false
  altNonempty : ∀ i n, .alt i n ∈ e.nodes → n ≠ []
  counts : ∀ i d min max, .repeated i d min max ∈ e.nodes →
    min ≤ max ∧ max ≤ astCountUnbounded ∧ (repeated i d min max).nestedCount < astCountUnbounded

/-- The shape that rewriting leaves. -/
structure Flat (e : AstExpr) : Prop where
  concat : ∀ i n, .concat i n ∈ e.nodes →
    ∀ d ∈ n, d.isEmpty = false ∧ d.isTombstone = false ∧ d.isConcat = false
  alt : ∀ i n, .alt i n ∈ e.nodes → ∀ d ∈ n, d.isAlt = false

theorem Rewritable.of_mem (he : e.Rewritable) (hd : d ∈ e.nodes) : d.Rewritable where
  noAnchor c hc := he.noAnchor c (nodes_trans hd hc)
  noSubtract c hc := he.noSubtract c (nodes_trans hd hc)
  altNonempty i n hc := he.altNonempty i n (nodes_trans hd hc)
  counts i c min max hc := he.counts i c min max (nodes_trans hd hc)

/-! ## §3 Rewritten Trees -/

/-- What holds of a single node after rewriting. -/
def Tidy : AstExpr → Prop
  | .concat _ n => ∀ d ∈ n, d.isEmpty = false ∧ d.isTombstone = false ∧ d.isConcat = false
  | .alt _ n => n ≠ [] ∧ ∀ d ∈ n, d.isAlt = false
  | .repeated i e lo hi => lo ≤ hi ∧ 0 < hi ∧ hi ≤ astCountUnbounded ∧
      (repeated i e lo hi).nestedCount < astCountUnbounded
  | .anchor _ _ _ => False
  | .subtract _ _ _ => False
  | _ => True

/-- A tree that rewriting has been through. -/
def Rewritten (e : AstExpr) : Prop := ∀ d ∈ e.nodes, d.Tidy

theorem Rewritten.of_mem (he : e.Rewritten) (hd : d ∈ e.nodes) : d.Rewritten :=
  fun c hc => he c (nodes_trans hd hc)

theorem Rewritten.tidy (he : e.Rewritten) : e.Tidy := he e (mem_nodes_self e)

theorem Rewritten.flat (he : e.Rewritten) : e.Flat where
  concat i n h := he (.concat i n) h
  alt i n h := (he (.alt i n) h).2

theorem rewritten_concat_iff :
    (concat i n).Rewritten ↔ (concat i n).Tidy ∧ ∀ e ∈ n, e.Rewritten := by
  simp only [Rewritten, mem_nodes_concat, forall_eq_or_imp, forall_exists_index, and_imp]
  exact and_congr_right fun _ => ⟨fun h e he d => h d e he, fun h d e he => h e he d⟩

theorem rewritten_alt_iff : (alt i n).Rewritten ↔ (alt i n).Tidy ∧ ∀ e ∈ n, e.Rewritten := by
  simp only [Rewritten, mem_nodes_alt, forall_eq_or_imp, forall_exists_index, and_imp]
  exact and_congr_right fun _ => ⟨fun h e he d => h d e he, fun h d e he => h e he d⟩

theorem rewritten_repeated_iff :
    (repeated i e lo hi).Rewritten ↔ (repeated i e lo hi).Tidy ∧ e.Rewritten := by
  simp only [Rewritten, mem_nodes_repeated, forall_eq_or_imp]

theorem rewritten_group_iff {id : ℕ} : (group i e id).Rewritten ↔ e.Rewritten := by
  simp only [Rewritten, mem_nodes_group, forall_eq_or_imp]
  exact and_iff_right trivial

theorem rewritten_empty (i : AstInfo) : (AstExpr.empty i).Rewritten := by
  simp [Rewritten, nodes, Tidy]

theorem rewritten_tombstone (i : AstInfo) : (AstExpr.tombstone i).Rewritten := by
  simp [Rewritten, nodes, Tidy]

end AstExpr

open AstExpr

/-- What rewriting a tree achieves: the strings stay, and no chain of counts grows. -/
structure Rewrites (e e' : AstExpr) : Prop where
  rewritten : e'.Rewritten
  language_eq : e'.language = e.language
  nestedCount_le : e'.nestedCount ≤ e.nestedCount

/-! ## §4 Sequences -/

theorem spliceConcats_eq (n : List AstExpr) : spliceConcats n = n.flatMap spliceConcat := by
  induction n with
  | nil => rw [spliceConcats, flatMap_nil]
  | cons e n ih => rw [spliceConcats, ih, flatMap_cons]

theorem prod_flatMap (f : AstExpr → List AstExpr) (n : List AstExpr)
    (h : ∀ e ∈ n, ((f e).map language).prod = e.language) :
    ((n.flatMap f).map language).prod = (n.map language).prod := by
  induction n with
  | nil => rfl
  | cons e n ih =>
    rw [flatMap_cons, map_append, prod_append, h e mem_cons_self,
      ih fun d hd => h d (mem_cons_of_mem e hd), map_cons, prod_cons]

theorem language_spliceConcat (e : AstExpr) :
    ((spliceConcat e).map language).prod = e.language := by
  induction e with
  | concat i n ih =>
    rw [spliceConcat, spliceConcats_eq, language_concat, prod_flatMap _ _ ih]
  | _ => simp [spliceConcat]

/-- What a spliced sequence is made of. -/
theorem mem_spliceConcat (h : d ∈ spliceConcat e) :
    d.isConcat = false ∧ (d = e ∨ ∃ i n, concat i n ∈ e.nodes ∧ d ∈ n) := by
  induction e with
  | concat i n ih =>
    rw [spliceConcat, spliceConcats_eq, mem_flatMap] at h
    obtain ⟨e, he, hd⟩ := h
    obtain ⟨hconcat, rfl | ⟨j, m, hm, hdm⟩⟩ := ih e he hd
    · exact ⟨hconcat, .inr ⟨i, n, mem_nodes_self _, he⟩⟩
    · exact ⟨hconcat, .inr ⟨j, m, mem_nodes_concat.mpr (.inr ⟨e, he, hm⟩), hdm⟩⟩
  | _ =>
    simp only [spliceConcat, List.mem_singleton] at h
    subst h
    exact ⟨rfl, .inl rfl⟩

theorem nestedCount_spliceConcat (h : d ∈ spliceConcat e) : d.nestedCount ≤ e.nestedCount := by
  induction e with
  | concat i n ih =>
    rw [spliceConcat, spliceConcats_eq, mem_flatMap] at h
    obtain ⟨e, he, hd⟩ := h
    exact (ih e he hd).trans (nestedCount_le_nestedCounts he)
  | _ =>
    simp only [spliceConcat, List.mem_singleton] at h
    rw [h]

theorem dropRepeatedAnchors_eq (h : ∀ e ∈ n, e.isAnchor = false) (prev : Option AstAnchorType) :
    dropRepeatedAnchors prev n = n := by
  induction n generalizing prev with
  | nil => rw [dropRepeatedAnchors]
  | cons e n ih =>
    have he := h e mem_cons_self
    have hn := ih fun d hd => h d (mem_cons_of_mem e hd)
    cases e with
    | anchor i t nl => cases he
    | _ => rw [dropRepeatedAnchors, hn]; simp

theorem prod_eq_zero_of_mem (he : e ∈ n) (hzero : e.language = 0) : (n.map language).prod = 0 := by
  apply prod_eq_zero
  exact mem_map.mpr ⟨e, he, hzero⟩

theorem prod_filter_isEmpty (n : List AstExpr) :
    ((n.filter fun e => !e.isEmpty).map language).prod = (n.map language).prod := by
  induction n with
  | nil => rfl
  | cons e n ih =>
    rw [filter_cons]
    split
    · rw [map_cons, prod_cons, ih, map_cons, prod_cons]
    · rename_i hempty
      cases e with
      | empty i => rw [ih, map_cons, prod_cons, language_empty, one_mul]
      | _ => exact absurd rfl hempty

/-- The rewriting of a sequence whose members are rewritten. -/
theorem rewriteConcat_spec (i : AstInfo) (hn : ∀ e ∈ n, e.Rewritten) :
    Rewrites (.concat i n) (rewriteConcat i n) := by
  have hanchor : ∀ e ∈ n, e.isAnchor = false := by
    intro e he
    have htidy := (hn e he).tidy
    cases e with
    | anchor => exact absurd htidy id
    | _ => rfl
  rw [rewriteConcat, dropRepeatedAnchors_eq hanchor]
  split
  · -- a member that never matches
    rename_i hany
    obtain ⟨e, he, htomb⟩ := any_eq_true.mp hany
    have hzero : e.language = 0 := by
      cases e with
      | tombstone j => exact language_tombstone j
      | _ => cases htomb
    refine ⟨rewritten_tombstone i, ?_, Nat.zero_le _⟩
    rw [language_tombstone, language_concat, prod_eq_zero_of_mem he hzero]
  · rename_i hany
    set m := spliceConcats (n.filter fun e => !e.isEmpty) with hm
    have hlanguage : (m.map language).prod = (AstExpr.concat i n).language := by
      rw [hm, spliceConcats_eq, prod_flatMap _ _ fun e _ => language_spliceConcat e,
        prod_filter_isEmpty, language_concat]
    -- each member comes from a member of the sequence
    have hmem : ∀ d ∈ m, d.Rewritten ∧
        (d.isEmpty = false ∧ d.isTombstone = false ∧ d.isConcat = false) ∧
        d.nestedCount ≤ (AstExpr.concat i n).nestedCount := by
      intro d hd
      rw [hm, spliceConcats_eq, mem_flatMap] at hd
      obtain ⟨e, he, hd⟩ := hd
      obtain ⟨hen, hempty⟩ := mem_filter.mp he
      have hcount : d.nestedCount ≤ (AstExpr.concat i n).nestedCount := by
        exact (nestedCount_spliceConcat hd).trans (nestedCount_le_nestedCounts hen)
      obtain ⟨hconcat, rfl | ⟨j, k, hk, hdk⟩⟩ := mem_spliceConcat hd
      · refine ⟨hn d hen, ⟨by simpa using hempty, ?_, hconcat⟩, hcount⟩
        exact Bool.eq_false_iff.mpr fun htomb => hany (any_eq_true.mpr ⟨d, hen, htomb⟩)
      · refine ⟨?_, (hn e hen).flat.concat j k hk d hdk, hcount⟩
        apply (hn e hen).of_mem (nodes_trans hk _)
        exact mem_nodes_concat.mpr (.inr ⟨d, hdk, mem_nodes_self d⟩)
    rcases m with _ | ⟨e, _ | ⟨e', m⟩⟩
    · exact ⟨rewritten_empty i, by simpa using hlanguage, Nat.zero_le _⟩
    · obtain ⟨hrew, -, hcount⟩ := hmem e mem_cons_self
      exact ⟨hrew, by simpa using hlanguage, hcount⟩
    · refine ⟨rewritten_concat_iff.mpr ⟨fun d hd => (hmem d hd).2.1, fun d hd => (hmem d hd).1⟩,
        ?_, ?_⟩
      · rw [language_concat, hlanguage]
      · exact nestedCounts_le_iff.mpr fun d hd => (hmem d hd).2.2

/-! ## §5 Alternatives -/

theorem spliceAlts_eq (n : List AstExpr) : spliceAlts n = n.flatMap spliceAlt := by
  induction n with
  | nil => rw [spliceAlts, flatMap_nil]
  | cons e n ih => rw [spliceAlts, ih, flatMap_cons]

theorem language_spliceAlt (e : AstExpr) (w : List Byte) :
    (∃ d ∈ spliceAlt e, w ∈ d.language) ↔ w ∈ e.language := by
  induction e with
  | alt i n ih =>
    simp only [spliceAlt, spliceAlts_eq, mem_flatMap, mem_language_alt]
    constructor
    · rintro ⟨d, ⟨e, he, hd⟩, hw⟩
      exact ⟨e, he, (ih e he).mp ⟨d, hd, hw⟩⟩
    · rintro ⟨e, he, hw⟩
      obtain ⟨d, hd, hw⟩ := (ih e he).mpr hw
      exact ⟨d, ⟨e, he, hd⟩, hw⟩
  | _ => simp [spliceAlt]

/-- What a spliced alternation is made of. -/
theorem mem_spliceAlt (h : d ∈ spliceAlt e) :
    d.isAlt = false ∧ d ∈ e.nodes ∧ d.nestedCount ≤ e.nestedCount := by
  induction e with
  | alt i n ih =>
    rw [spliceAlt, spliceAlts_eq, mem_flatMap] at h
    obtain ⟨e, he, hd⟩ := h
    obtain ⟨halt, hnode, hcount⟩ := ih e he hd
    refine ⟨halt, mem_nodes_alt.mpr (.inr ⟨e, he, hnode⟩), ?_⟩
    exact hcount.trans (nestedCount_le_nestedCounts he)
  | _ =>
    simp only [spliceAlt, List.mem_singleton] at h
    subst h
    exact ⟨rfl, mem_nodes_self _, le_rfl⟩

theorem spliceAlt_ne_nil (he : e.Rewritten) : spliceAlt e ≠ [] := by
  induction e with
  | alt i n ih =>
    obtain ⟨⟨hne, -⟩, hn⟩ := rewritten_alt_iff.mp he
    obtain ⟨e, n, rfl⟩ := exists_cons_of_ne_nil hne
    have hhead := mem_cons_self (a := e) (l := n)
    exact fun hnil => ih e hhead (hn e hhead) (append_eq_nil_iff.mp hnil).1
  | _ => simp [spliceAlt]

section Deduplicate

variable {β : Type*} {g : AstExpr → β} (hg : ∀ {a b}, astExprCmp a b = .eq → g a = g b)
include hg

theorem exists_survivingAfter (last : AstExpr) {l : List (AstExpr × ℕ)} {p : AstExpr × ℕ}
    (hp : p ∈ l) : g last = g p.1 ∨
      ∃ q ∈ l, q.2 ∈ survivingAfter last l ∧ g q.1 = g p.1 := by
  induction l generalizing last with
  | nil => cases hp
  | cons r l ih =>
    rw [survivingAfter]
    split
    · rename_i heq
      rcases mem_cons.mp hp with rfl | hp
      · exact .inl (hg heq)
      · rcases ih last hp with h | ⟨q, hq, hsurv, h⟩
        · exact .inl h
        · exact .inr ⟨q, mem_cons_of_mem r hq, hsurv, h⟩
    · right
      rcases mem_cons.mp hp with rfl | hp
      · exact ⟨p, mem_cons_self, mem_cons_self, rfl⟩
      · rcases ih r.1 hp with h | ⟨q, hq, hsurv, h⟩
        · exact ⟨r, mem_cons_self, mem_cons_self, h⟩
        · exact ⟨q, mem_cons_of_mem r hq, mem_cons_of_mem _ hsurv, h⟩

/-- For every entry that is dropped, one that compares as equal stays. -/
theorem exists_surviving {l : List (AstExpr × ℕ)} {p : AstExpr × ℕ} (hp : p ∈ l) :
    ∃ q ∈ l, q.2 ∈ surviving l ∧ g q.1 = g p.1 := by
  cases l with
  | nil => cases hp
  | cons r l =>
    have hr : r.2 ∈ surviving (r :: l) := mem_cons_self
    rcases mem_cons.mp hp with rfl | hp
    · exact ⟨p, mem_cons_self, hr, rfl⟩
    · rcases exists_survivingAfter hg r.1 hp with h | ⟨q, hq, hsurv, h⟩
      · exact ⟨r, mem_cons_self, hr, h⟩
      · exact ⟨q, mem_cons_of_mem r hq, mem_cons_of_mem _ hsurv, h⟩

theorem exists_mem_deduplicateAlt (h : e ∈ n) :
    ∃ d ∈ deduplicateAlt n, g d = g e := by
  obtain ⟨k, hk, rfl⟩ := getElem_of_mem h
  have hp : (n[k], k) ∈ n.zipIdx := mk_mem_zipIdx_iff_getElem?.mpr (getElem?_eq_getElem hk)
  have hperm := perm_insertionSort (fun p q => astExprCmp p.1 q.1 ≠ .gt) n.zipIdx
  obtain ⟨q, hq, hsurv, heq⟩ := exists_surviving hg (hperm.mem_iff.mpr hp)
  refine ⟨q.1, mem_map.mpr ⟨q, mem_filter.mpr ⟨hperm.mem_iff.mp hq, ?_⟩, rfl⟩, heq⟩
  exact decide_eq_true hsurv

end Deduplicate

theorem mem_of_mem_deduplicateAlt (h : e ∈ deduplicateAlt n) : e ∈ n := by
  obtain ⟨⟨d, k⟩, hp, rfl⟩ := mem_map.mp h
  exact fst_mem_of_mem_zipIdx (mem_filter.mp hp).1

/-- The rewriting of an alternation whose members are rewritten. -/
theorem rewriteAlt_spec (i : AstInfo) (hne : n ≠ []) (hn : ∀ e ∈ n, e.Rewritten) :
    Rewrites (.alt i n) (rewriteAlt i n) := by
  rw [rewriteAlt]
  set m := if 1 < (spliceAlts n).length then deduplicateAlt (spliceAlts n) else spliceAlts n
    with hm
  have hsub : ∀ d ∈ m, d ∈ spliceAlts n := by
    intro d hd
    rw [hm] at hd
    split at hd
    · exact mem_of_mem_deduplicateAlt hd
    · exact hd
  -- what deduplication drops has an equal left behind
  have hsup : ∀ d ∈ spliceAlts n, ∃ d' ∈ m, d'.language = d.language := by
    intro d hd
    rw [hm]
    split
    · exact exists_mem_deduplicateAlt astExprCmp_eq_language hd
    · exact ⟨d, hd, rfl⟩
  have hlanguage : ∀ w, (∃ d ∈ m, w ∈ d.language) ↔ w ∈ (AstExpr.alt i n).language := by
    intro w
    have hsplice := language_spliceAlt (.alt i n) w
    rw [← hsplice]
    constructor
    · rintro ⟨d, hd, hw⟩
      exact ⟨d, hsub d hd, hw⟩
    · rintro ⟨d, hd, hw⟩
      obtain ⟨d', hd', heq⟩ := hsup d hd
      exact ⟨d', hd', heq ▸ hw⟩
  have hmem : ∀ d ∈ m, d.Rewritten ∧ d.isAlt = false ∧
      d.nestedCount ≤ (AstExpr.alt i n).nestedCount := by
    intro d hd
    have hd' := hsub d hd
    rw [spliceAlts_eq, mem_flatMap] at hd'
    obtain ⟨e, he, hd'⟩ := hd'
    obtain ⟨halt, hnode, hcount⟩ := mem_spliceAlt hd'
    refine ⟨(hn e he).of_mem hnode, halt, ?_⟩
    exact hcount.trans (nestedCount_le_nestedCounts he)
  have hmne : m ≠ [] := by
    obtain ⟨e, n, rfl⟩ := exists_cons_of_ne_nil hne
    obtain ⟨d, hd⟩ := exists_mem_of_ne_nil _ (spliceAlt_ne_nil (hn e mem_cons_self))
    obtain ⟨d', hd', -⟩ := hsup d (by exact mem_append_left _ hd)
    exact ne_nil_of_mem hd'
  -- a single member replaces the node
  rcases m with _ | ⟨e, _ | ⟨e', m⟩⟩
  · exact absurd rfl hmne
  · obtain ⟨hrew, -, hcount⟩ := hmem e mem_cons_self
    refine ⟨hrew, ?_, hcount⟩
    ext w
    rw [← hlanguage]
    simp
  · refine ⟨rewritten_alt_iff.mpr ⟨⟨hmne, fun d hd => (hmem d hd).2.1⟩,
      fun d hd => (hmem d hd).1⟩, ?_, ?_⟩
    · ext w
      rw [mem_language_alt, hlanguage]
    · exact nestedCounts_le_iff.mpr fun d hd => (hmem d hd).2.2

/-! ## §6 Repetitions -/

theorem le_upperBound (h : lo ≤ hi) : (lo : ℕ∞) ≤ upperBound hi := by
  rw [upperBound]
  split
  · exact le_top
  · exact_mod_cast h

theorem upperBound_of_lt (h : hi < astCountUnbounded) : upperBound hi = hi := by
  rw [upperBound, if_neg h.ne]

@[simp] theorem upperBound_unbounded : upperBound astCountUnbounded = ⊤ := by
  rw [upperBound, if_pos rfl]

theorem min_le_boundedCount (h : lo ≤ hi) : lo ≤ boundedCount lo hi := by
  rw [boundedCount]
  split
  · exact le_rfl
  · exact h

/-- A tree that is found to be nullable stands for the empty string, among others. -/
theorem nil_mem_language (he : e.Rewritten) (h : Rewrite.isNullable e = true) :
    [] ∈ e.language := by
  induction e with
  | empty i => exact Language.nil_mem_one
  | concat i n ih =>
    have hn := (rewritten_concat_iff.mp he).2
    rw [Rewrite.isNullable] at h
    clear he
    induction n with
    | nil => exact Language.nil_mem_one
    | cons e n ihn =>
      rw [Rewrite.allNullable, Bool.and_eq_true] at h
      refine ⟨[], ih e mem_cons_self (hn e mem_cons_self) h.1, [], ?_, rfl⟩
      exact ihn (fun d hd => ih d (mem_cons_of_mem e hd)) h.2
        (fun d hd => hn d (mem_cons_of_mem e hd))
  | alt i n ih =>
    have hn := (rewritten_alt_iff.mp he).2
    rw [Rewrite.isNullable] at h
    rw [mem_language_alt]
    clear he
    induction n with
    | nil => cases h
    | cons e n ihn =>
      rw [Rewrite.anyNullable, Bool.or_eq_true] at h
      rcases h with h | h
      · exact ⟨e, mem_cons_self, ih e mem_cons_self (hn e mem_cons_self) h⟩
      · obtain ⟨d, hd, hnil⟩ := ihn (fun d hd => ih d (mem_cons_of_mem e hd)) h
          (fun d hd => hn d (mem_cons_of_mem e hd))
        exact ⟨d, mem_cons_of_mem e hd, hnil⟩
  | repeated i e lo hi ih =>
    obtain ⟨⟨hle, -⟩, he⟩ := rewritten_repeated_iff.mp he
    rw [Rewrite.isNullable, Bool.or_eq_true, beq_iff_eq] at h
    rw [language_repeated]
    have hzero : [] ∈ repeats e.language 0 (upperBound hi) :=
      ⟨0, le_rfl, bot_le, by exact Language.nil_mem_one⟩
    rcases h with rfl | h
    · exact hzero
    · rwa [repeats_of_nil_mem (ih he h) (le_upperBound hle)]
  | group i e id ih =>
    exact ih (rewritten_group_iff.mp he) h
  | _ => exact absurd h (by simp [Rewrite.isNullable])

/-- The counts that `a{h,i}{j,k}` is folded into. -/
structure FoldsTo (h i j k v w : ℕ) : Prop where
  min_eq : v = h * j
  max_eq : w = if i = astCountUnbounded ∨ k = astCountUnbounded then astCountUnbounded else i * k
  gap : j = k ∨ h ≤ 1 ∨ (j ≠ 0 ∧ (i = astCountUnbounded ∨ h * (j + 1) ≤ i * j + 1))

theorem foldsTo_of_foldCounts {h i j k v w : ℕ} (hfold : foldCounts h i j k = some (v, w)) :
    FoldsTo h i j k v w := by
  rw [foldCounts] at hfold
  split at hfold
  · cases hfold
  split at hfold
  · cases hfold
  split at hfold
  · split at hfold
    · cases hfold
    split at hfold
    · cases hfold
    rename_i hzero hbound
    obtain ⟨rfl, rfl⟩ := Prod.mk.inj (Option.some.inj hfold)
    refine ⟨rfl, rfl, .inr (.inr ⟨hzero, ?_⟩)⟩
    by_cases hi : i = astCountUnbounded
    · exact .inl hi
    · omega
  · obtain ⟨rfl, rfl⟩ := Prod.mk.inj (Option.some.inj hfold)
    exact ⟨rfl, rfl, by omega⟩

section

variable {h i j k v w : ℕ} (hfold : FoldsTo h i j k v w) (hhi : h ≤ i) (hpos : 0 < i)
  (hjk : j ≤ k) (hkpos : 0 < k) (hprod : boundedCount j k * max 1 (boundedCount h i) <
    astCountUnbounded)

include hprod in
theorem mul_lt_unbounded (hi : i ≠ astCountUnbounded) (hk : k ≠ astCountUnbounded) :
    i * k < astCountUnbounded := by
  rw [boundedCount, if_neg hk, boundedCount, if_neg hi] at hprod
  refine lt_of_le_of_lt ?_ hprod
  rw [mul_comm]
  exact Nat.mul_le_mul_left k (le_max_right 1 i)

include hfold hhi hjk in
theorem FoldsTo.boundedCount_le : boundedCount v w ≤ boundedCount j k * boundedCount h i := by
  by_cases hor : i = astCountUnbounded ∨ k = astCountUnbounded
  · rw [boundedCount, if_pos (by rw [hfold.max_eq, if_pos hor]), hfold.min_eq, mul_comm]
    exact Nat.mul_le_mul (min_le_boundedCount hjk) (min_le_boundedCount hhi)
  · have hw : w = i * k := by rw [hfold.max_eq, if_neg hor]
    push Not at hor
    rw [boundedCount, boundedCount, if_neg hor.2, boundedCount, if_neg hor.1, hw, mul_comm k]
    split
    · rw [hfold.min_eq]
      exact Nat.mul_le_mul hhi hjk
    · exact le_rfl

include hfold hpos in
/-- There is no gap between the first two blocks. -/
theorem FoldsTo.gap_le (hj : j < astCountUnbounded) :
    (j : ℕ∞) = upperBound k ∨ (h * (j + 1 : ℕ) : ℕ∞) ≤ upperBound i * j + 1 := by
  rcases hfold.gap with rfl | hone | ⟨hj, rfl | hgap⟩
  · left
    rw [upperBound_of_lt hj]
  · right
    have hi : ((1 : ℕ) : ℕ∞) ≤ upperBound i := le_upperBound hpos
    calc (h * (j + 1 : ℕ) : ℕ∞) ≤ 1 * (j + 1 : ℕ) := by
          exact_mod_cast Nat.mul_le_mul_right (j + 1) hone
      _ = 1 * j + 1 := by push_cast; ring
      _ ≤ upperBound i * j + 1 := by
          exact add_le_add (mul_le_mul_left (by exact_mod_cast hi) _) le_rfl
  · right
    rw [upperBound_unbounded, ENat.top_mul (by exact_mod_cast hj)]
    exact le_top
  · right
    calc (h * (j + 1 : ℕ) : ℕ∞) ≤ i * j + 1 := by exact_mod_cast hgap
      _ ≤ upperBound i * j + 1 := add_le_add (mul_le_mul_left (le_upperBound le_rfl) _) le_rfl

include hfold hpos hkpos in
/-- The upper bound is right unless a product is taken for unbounded. -/
theorem FoldsTo.upperBound_eq (hprod : i ≠ astCountUnbounded → k ≠ astCountUnbounded →
    i * k ≠ astCountUnbounded) : upperBound w = upperBound i * upperBound k := by
  have hne : ∀ {n : ℕ}, 0 < n → upperBound n ≠ 0 := by
    intro n hn
    rw [upperBound]
    split
    · exact ENat.top_ne_zero
    · exact_mod_cast hn.ne'
  rw [hfold.max_eq]
  by_cases hi : i = astCountUnbounded
  · rw [if_pos (.inl hi), hi, upperBound_unbounded, ENat.top_mul (hne hkpos)]
  · by_cases hk : k = astCountUnbounded
    · rw [if_pos (.inr hk), hk, upperBound_unbounded, ENat.mul_top (hne hpos)]
    · rw [if_neg (by simp [hi, hk]), upperBound, upperBound, upperBound, if_neg (hprod hi hk),
        if_neg hi, if_neg hk, Nat.cast_mul]

include hfold hhi hpos hjk hkpos hprod

/-- The folded counts are counts again. -/
theorem FoldsTo.counts : v ≤ w ∧ 0 < w ∧ w ≤ astCountUnbounded := by
  by_cases hor : i = astCountUnbounded ∨ k = astCountUnbounded
  · have hw : w = astCountUnbounded := by rw [hfold.max_eq, if_pos hor]
    rw [hw]
    refine ⟨?_, by decide, le_rfl⟩
    calc v = j * h := by rw [hfold.min_eq, mul_comm]
      _ ≤ boundedCount j k * max 1 (boundedCount h i) :=
        Nat.mul_le_mul (min_le_boundedCount hjk)
          ((min_le_boundedCount hhi).trans (le_max_right 1 _))
      _ ≤ astCountUnbounded := hprod.le
  · have hw : w = i * k := by rw [hfold.max_eq, if_neg hor]
    push Not at hor
    rw [hw, hfold.min_eq]
    exact ⟨Nat.mul_le_mul hhi hjk, Nat.mul_pos hpos hkpos, (mul_lt_unbounded hprod hor.1 hor.2).le⟩

theorem FoldsTo.language_eq (L : Language Byte) :
    repeats (repeats L h (upperBound i)) j (upperBound k) = repeats L v (upperBound w) := by
  have hjlt : j < astCountUnbounded := by
    refine lt_of_le_of_lt ?_ hprod
    calc j ≤ boundedCount j k := min_le_boundedCount hjk
      _ ≤ boundedCount j k * max 1 (boundedCount h i) :=
        Nat.le_mul_of_pos_right _ (lt_max_of_lt_left Nat.one_pos)
  rw [hfold.upperBound_eq hpos hkpos fun hi hk => (mul_lt_unbounded hprod hi hk).ne, hfold.min_eq]
  exact repeats_repeats (le_upperBound hhi) (le_upperBound hjk) (hfold.gap_le hpos hjlt)

end

theorem nestedCount_repeated (i : AstInfo) (e : AstExpr) (lo hi : ℕ) :
    (repeated i e lo hi).nestedCount = boundedCount lo hi * max 1 e.nestedCount := by
  rw [nestedCount]

theorem boundedCount_mono {lo' : ℕ} (h : lo' ≤ lo) : boundedCount lo' hi ≤ boundedCount lo hi := by
  rw [boundedCount, boundedCount]
  split
  · exact h
  · exact le_rfl

/-- The rewriting of a repetition whose operand is rewritten. -/
theorem rewriteRepeat_spec (i : AstInfo) (he : e.Rewritten) (hle : lo ≤ hi)
    (hhi : hi ≤ astCountUnbounded) (hcount : (repeated i e lo hi).nestedCount < astCountUnbounded) :
    Rewrites (.repeated i e lo hi) (rewriteRepeat i e lo hi) := by
  rw [rewriteRepeat]
  split
  · rename_i hempty
    cases e with
    | empty j =>
      refine ⟨rewritten_empty i, ?_, Nat.zero_le _⟩
      rw [language_repeated, language_empty, language_empty, repeats_one_left (le_upperBound hle)]
    | _ => cases hempty
  split
  · rename_i hzero
    obtain ⟨rfl, rfl⟩ := hzero
    refine ⟨rewritten_empty i, ?_, Nat.zero_le _⟩
    rw [language_repeated, language_empty, upperBound_of_lt (by decide), Nat.cast_zero,
      repeats_zero_zero]
  split
  · rename_i hone
    obtain ⟨rfl, rfl⟩ := hone
    refine ⟨he, ?_, ?_⟩
    · rw [language_repeated, upperBound_of_lt (by decide), Nat.cast_one, repeats_one_one]
    · rw [nestedCount_repeated, boundedCount, if_neg (by decide), one_mul]
      exact le_max_right 1 _
  have hpos : 0 < hi := by omega
  -- the minimum may be lowered to zero, which changes no string
  set lo' := if 0 < lo ∧ Rewrite.isNullable e = true then 0 else lo with hlo'
  have hlo'le : lo' ≤ lo := by
    rw [hlo']
    split
    · exact Nat.zero_le lo
    · exact le_rfl
  have hlanguage : repeats e.language lo' (upperBound hi) = (repeated i e lo hi).language := by
    rw [hlo']
    split
    · rename_i hnull
      exact (repeats_of_nil_mem (nil_mem_language he hnull.2) (le_upperBound hle)).symm
    · rfl
  have hcount' : (repeated i e lo' hi).nestedCount ≤ (repeated i e lo hi).nestedCount := by
    exact Nat.mul_le_mul_right _ (boundedCount_mono hlo'le)
  have hkeep : Rewrites (repeated i e lo hi) (repeated i e lo' hi) := by
    refine ⟨rewritten_repeated_iff.mpr ⟨⟨hlo'le.trans hle, hpos, hhi, ?_⟩, he⟩, ?_, hcount'⟩
    · exact hcount'.trans_lt hcount
    · rw [← hlanguage, language_repeated]
  cases e with
  | repeated j e' h k =>
    dsimp only
    split
    · -- two nested repetitions become one
      rename_i v w hfold
      have hfolds := foldsTo_of_foldCounts hfold
      obtain ⟨⟨hhk, hkpos, hkle, -⟩, he'⟩ := rewritten_repeated_iff.mp he
      have hlohi : lo' ≤ hi := hlo'le.trans hle
      have hprod : boundedCount lo' hi * max 1 (boundedCount h k) < astCountUnbounded := by
        refine lt_of_le_of_lt ?_ (hcount'.trans_lt hcount)
        refine Nat.mul_le_mul_left _ (max_le_max le_rfl ?_)
        exact Nat.le_mul_of_pos_right _ (lt_max_of_lt_left Nat.one_pos)
      have hnested : (repeated i e' v w).nestedCount ≤
          (repeated i (repeated j e' h k) lo hi).nestedCount := by
        refine le_trans ?_ hcount'
        calc boundedCount v w * max 1 e'.nestedCount
            ≤ boundedCount lo' hi * boundedCount h k * max 1 e'.nestedCount :=
              Nat.mul_le_mul_right _ (hfolds.boundedCount_le hhk hlohi)
          _ = boundedCount lo' hi * (boundedCount h k * max 1 e'.nestedCount) := mul_assoc ..
          _ ≤ boundedCount lo' hi * max 1 (boundedCount h k * max 1 e'.nestedCount) :=
              Nat.mul_le_mul_left _ (le_max_right ..)
      obtain ⟨hvw, hwpos, hwle⟩ := hfolds.counts hhk hkpos hlohi hpos hprod
      refine ⟨rewritten_repeated_iff.mpr ⟨⟨hvw, hwpos, hwle, hnested.trans_lt hcount⟩, he'⟩, ?_,
        hnested⟩
      rw [language_repeated, ← hfolds.language_eq hhk hkpos hlohi hpos hprod, ← hlanguage,
        language_repeated]
    · exact hkeep
  | tombstone j =>
    -- nothing can be repeated
    rw [language_tombstone] at hlanguage
    dsimp only
    split
    · rename_i hzero'
      refine ⟨rewritten_empty i, ?_, Nat.zero_le _⟩
      rw [← hlanguage, hzero', repeats_zero_left_zero, language_empty]
    · rename_i hzero'
      refine ⟨rewritten_tombstone i, ?_, Nat.zero_le _⟩
      rw [← hlanguage, repeats_zero_left_pos (pos_of_ne_zero hzero'), language_tombstone]
  | _ => exact hkeep

/-! ## §7 Nested Counts -/

/-- How often the operand of `e{h,i}{j,k}` can be repeated in all. -/
def totalCounts (h i j k : ℕ) : Set ℕ :=
  {t | ∃ ns : List ℕ, (j ≤ ns.length ∧ (ns.length : ℕ∞) ≤ upperBound k) ∧
    (∀ n ∈ ns, h ≤ n ∧ (n : ℕ∞) ≤ upperBound i) ∧ ns.sum = t}

/-- The counts `v` and `w` stand for what the nested counts allow. -/
structure FoldsExactly (h i j k v w : ℕ) : Prop where
  bounded : v ≠ astCountUnbounded
  totals : totalCounts h i j k = {t | v ≤ t ∧ (t : ℕ∞) ≤ upperBound w}

/-- The counts of a repetition; only the upper one may be unbounded. -/
structure ValidCounts (min max : ℕ) : Prop where
  le : min ≤ max
  min_lt : min < astCountUnbounded
  max_le : max ≤ astCountUnbounded

section

variable {h i j k v w : ℕ}

/-- Whenever a repetition of a repetition becomes a single one, the counts were folded. -/
theorem foldsTo_of_rewriteRepeat {outer inner : AstInfo} (hnull : Rewrite.isNullable e = false)
    (hjk : j ≤ k)
    (hrew : rewriteRepeat outer (.repeated inner e h i) j k = .repeated outer e v w) :
    FoldsTo h i j k v w ∧ 0 < k := by
  have hinner : Rewrite.isNullable (.repeated inner e h i) = (h == 0) := by
    rw [Rewrite.isNullable, hnull, Bool.or_false]
  rw [rewriteRepeat, if_neg (by simp [isEmpty]), hinner] at hrew
  split at hrew
  · cases hrew
  split at hrew
  · -- the inner repetition is all that is left
    rename_i hone
    obtain ⟨rfl, rfl⟩ := hone
    obtain ⟨-, -, rfl, rfl⟩ := AstExpr.repeated.inj hrew
    refine ⟨⟨(mul_one h).symm, ?_, .inl rfl⟩, Nat.one_pos⟩
    split <;> simp_all [astCountUnbounded]
  dsimp only at hrew
  split at hrew
  · rename_i hzero hone v' w' hcounts
    obtain ⟨-, -, rfl, rfl⟩ := AstExpr.repeated.inj hrew
    obtain ⟨hmin, hmax, hgap⟩ := foldsTo_of_foldCounts hcounts
    refine ⟨?_, by omega⟩
    split at hmin
    · -- the minimum was lowered, which makes no difference if the inner one is zero
      rename_i hlower
      have hh : h = 0 := by simpa using hlower.2
      exact ⟨by rw [hmin, hh, zero_mul, zero_mul], hmax, .inr (.inl (by omega))⟩
    · rename_i hlower
      rw [if_neg hlower] at hgap
      exact ⟨hmin, hmax, hgap⟩
  · have hsize := congrArg sizeOf (AstExpr.repeated.inj hrew).2.1
    simp only [AstExpr.repeated.sizeOf_spec] at hsize
    omega

theorem totalCounts_eq (hfold : FoldsTo h i j k v w) (hinner : ValidCounts h i) (hpos : 0 < i)
    (houter : ValidCounts j k) :
    totalCounts h i j k = {t | h * j ≤ t ∧ (t : ℕ∞) ≤ upperBound i * upperBound k} := by
  ext t
  have hblocks := exists_blocks_iff (le_upperBound hinner.le) (le_upperBound houter.le)
    (hfold.gap_le hpos houter.min_lt) (n := t)
  refine Iff.trans ?_ hblocks
  simp only [← exists_sum_iff (le_upperBound hinner.le)]
  constructor
  · intro ⟨ns, hlen, hns, hsum⟩
    exact ⟨ns.length, hlen.1, hlen.2, ns, rfl, hns, hsum⟩
  · rintro ⟨m, hjm, hmk, ns, rfl, hns, hsum⟩
    exact ⟨ns, ⟨hjm, hmk⟩, hns, hsum⟩

end

/-- **Folding nested counts** is exact unless a product of bounded counts is the number that stands
for no bound. -/
theorem rewriteRepeat_foldsExactly_iff (outer inner : AstInfo) (e : AstExpr) (h i j k v w : ℕ)
    (hnull : Rewrite.isNullable e = false) (hinner : ValidCounts h i) (hpos : 0 < i)
    (houter : ValidCounts j k)
    (hrew : rewriteRepeat outer (.repeated inner e h i) j k = .repeated outer e v w) :
    FoldsExactly h i j k v w ↔ h * j ≠ astCountUnbounded ∧
      (i ≠ astCountUnbounded → k ≠ astCountUnbounded → i * k ≠ astCountUnbounded) := by
  obtain ⟨hfold, hkpos⟩ := foldsTo_of_rewriteRepeat hnull houter.le hrew
  have htotals := totalCounts_eq hfold hinner hpos houter
  constructor
  · intro hexact
    refine ⟨hfold.min_eq ▸ hexact.bounded, fun hi hk hprod => ?_⟩
    -- more than the largest total would be possible
    have hw : upperBound w = ⊤ := by
      rw [hfold.max_eq, if_neg (by simp [hi, hk]), hprod, upperBound_unbounded]
    have hmem : v + i * k + 1 ∈ totalCounts h i j k := by
      rw [hexact.totals, hw]
      exact ⟨by omega, le_top⟩
    rw [htotals, upperBound, upperBound, if_neg hi, if_neg hk] at hmem
    have hle : v + i * k + 1 ≤ i * k := by exact_mod_cast hmem.2
    omega
  · intro ⟨hmin, hprod⟩
    refine ⟨hfold.min_eq ▸ hmin, ?_⟩
    rw [htotals, hfold.upperBound_eq hpos hkpos hprod, hfold.min_eq]

/-- `a{2,3}{1,2}` becomes `a{2,6}`. -/
theorem rewriteRepeat_foldsExactly_iff_twoThree : FoldsExactly 2 3 1 2 2 6 := by
  apply (rewriteRepeat_foldsExactly_iff {} {} (.literal {} 97) 2 3 1 2 2 6 rfl
    ⟨by decide, by decide, by decide⟩ (by decide) ⟨by decide, by decide, by decide⟩ rfl).mpr
  decide

/-- `a{65535}{65537}` becomes a repetition whose lower count stands for no bound. -/
theorem rewriteRepeat_folds_to_unbounded :
    rewriteRepeat {} (.repeated {} (.literal {} 97) 65535 65535) 65537 65537 =
        .repeated {} (.literal {} 97) astCountUnbounded astCountUnbounded ∧
      ¬ FoldsExactly 65535 65535 65537 65537 astCountUnbounded astCountUnbounded :=
  ⟨by rfl, fun h => h.bounded rfl⟩

/-! ## §8 Trees -/

/-- The children of a node are rewritten one by one. -/
theorem rewriteAll_spec (compileSubexpr : CompileSubexpr) (n : List AstExpr)
    (hn : ∀ e ∈ n, ∃ e', rewrite compileSubexpr e = some e' ∧ Rewrites e e') :
    ∃ n', rewriteAll compileSubexpr n = some n' ∧ Forall₂ Rewrites n n' := by
  induction n with
  | nil => exact ⟨[], by rw [rewriteAll], .nil⟩
  | cons e n ih =>
    obtain ⟨e', he', hrew⟩ := hn e mem_cons_self
    obtain ⟨n', hn', hrews⟩ := ih fun d hd => hn d (mem_cons_of_mem e hd)
    exact ⟨e' :: n', by rw [rewriteAll, he', hn']; rfl, .cons hrew hrews⟩

theorem of_forall₂_rewrites {n n' : List AstExpr} (h : Forall₂ Rewrites n n') :
    (∀ e ∈ n', e.Rewritten) ∧ n'.map language = n.map language ∧
      nestedCounts n' ≤ nestedCounts n := by
  induction h with
  | nil => exact ⟨fun _ h => absurd h not_mem_nil, rfl, le_rfl⟩
  | cons hrew _ ih =>
    obtain ⟨hrewritten, hlanguage, hcount⟩ := ih
    refine ⟨?_, ?_, ?_⟩
    · exact forall_mem_cons.mpr ⟨hrew.rewritten, hrewritten⟩
    · rw [map_cons, map_cons, hrew.language_eq, hlanguage]
    · exact max_le_max hrew.nestedCount_le hcount

/-- The run over a tree, from what is done at each node. -/
theorem rewrite_spec (compileSubexpr : CompileSubexpr) (he : e.Rewritable) :
    ∃ e', rewrite compileSubexpr e = some e' ∧ Rewrites e e' := by
  induction e with
  | concat i n ih =>
    obtain ⟨n', hn', hrews⟩ := rewriteAll_spec compileSubexpr n fun e hen =>
      ih e hen (he.of_mem (mem_nodes_concat.mpr (.inr ⟨e, hen, mem_nodes_self e⟩)))
    obtain ⟨hrewritten, hlanguage, hcount⟩ := of_forall₂_rewrites hrews
    obtain ⟨hrew, hlang, hle⟩ := rewriteConcat_spec i hrewritten
    refine ⟨_, by rw [rewrite, hn']; rfl, hrew, ?_, hle.trans ?_⟩
    · rw [hlang, language_concat, language_concat, hlanguage]
    · exact hcount
  | alt i n ih =>
    obtain ⟨n', hn', hrews⟩ := rewriteAll_spec compileSubexpr n fun e hen =>
      ih e hen (he.of_mem (mem_nodes_alt.mpr (.inr ⟨e, hen, mem_nodes_self e⟩)))
    obtain ⟨hrewritten, hlanguage, hcount⟩ := of_forall₂_rewrites hrews
    have hne : n' ≠ [] := by
      rintro rfl
      exact he.altNonempty i n (mem_nodes_self _) (List.forall₂_nil_right_iff.mp hrews)
    obtain ⟨hrew, hlang, hle⟩ := rewriteAlt_spec i hne hrewritten
    refine ⟨_, by rw [rewrite, hn']; rfl, hrew, ?_, hle.trans ?_⟩
    · rw [hlang, language_alt, language_alt, hlanguage]
    · exact hcount
  | repeated i e lo hi ih =>
    obtain ⟨e', he', hrew⟩ := ih (he.of_mem (mem_nodes_repeated.mpr (.inr (mem_nodes_self e))))
    obtain ⟨hle, hhi, hcount⟩ := he.counts i e lo hi (mem_nodes_self _)
    have hnested : (repeated i e' lo hi).nestedCount ≤ (repeated i e lo hi).nestedCount := by
      exact Nat.mul_le_mul_left _ (max_le_max le_rfl hrew.nestedCount_le)
    obtain ⟨hrew', hlang, hle'⟩ := rewriteRepeat_spec i hrew.rewritten hle hhi
      (hnested.trans_lt hcount)
    refine ⟨_, by rw [rewrite, he']; rfl, hrew', ?_, hle'.trans hnested⟩
    rw [hlang, language_repeated, language_repeated, hrew.language_eq]
  | group i e id ih =>
    obtain ⟨e', he', hrew⟩ := ih (he.of_mem (mem_nodes_group.mpr (.inr (mem_nodes_self e))))
    refine ⟨_, by rw [rewrite, he']; rfl, ?_⟩
    dsimp only
    split
    · rename_i htomb
      have hzero : e'.language = 0 := by
        cases e' with
        | tombstone j => exact language_tombstone j
        | _ => cases htomb
      refine ⟨rewritten_tombstone i, ?_, Nat.zero_le _⟩
      rw [language_tombstone, language_group, ← hrew.language_eq, hzero]
    · exact ⟨rewritten_group_iff.mpr hrew.rewritten, by simpa using hrew.language_eq, le_rfl⟩
  | anchor i t nl => exact absurd (he.noAnchor _ (mem_nodes_self _)) Bool.noConfusion
  | subtract i a b => exact absurd (he.noSubtract _ (mem_nodes_self _)) Bool.noConfusion
  | _ =>
    exact ⟨_, by rw [rewrite]; all_goals simp, by simp [Rewritten, nodes, AstExpr.Tidy], rfl,
      le_rfl⟩

/-- Rewriting a tree without anchors and subtractions succeeds and changes no string; no sequence
of the result has a child that is empty, a tombstone or a sequence, and no alternation has a child
that is one. -/
theorem rewrite_language (compileSubexpr : CompileSubexpr) (e : AstExpr) (he : e.Rewritable) :
    ∃ e', rewrite compileSubexpr e = some e' ∧ e'.language = e.language ∧ e'.Flat := by
  obtain ⟨e', he', hrew⟩ := rewrite_spec compileSubexpr he
  exact ⟨e', he', hrew.language_eq, hrew.rewritten.flat⟩

/-- `(?:a|b|a){2}{3}` -/
def nestedPattern : AstExpr :=
  .repeated {} (.repeated {} (.alt {} [.literal {} 97, .literal {} 98, .literal {} 97]) 2 2) 3 3

theorem rewrite_language_nestedPattern : nestedPattern.Rewritable ∧
    ∃ e', rewrite (fun _ => none) nestedPattern = some e' ∧
      e'.language = nestedPattern.language ∧ e'.Flat := by
  have h : nestedPattern.Rewritable := by
    refine ⟨by decide, by decide, fun i n hn => ?_, fun i d lo hi hd => ?_⟩
    · simp only [nestedPattern, nodes, nodesOf, mem_cons, mem_append] at hn
      rintro rfl
      simp at hn
    · simp only [nestedPattern, nodes, nodesOf, mem_cons, mem_append] at hd
      simp only [AstExpr.repeated.injEq, not_mem_nil, or_false, reduceCtorEq] at hd
      rcases hd with ⟨rfl, rfl, rfl, rfl⟩ | ⟨rfl, rfl, rfl, rfl⟩ <;> decide
  exact ⟨h, rewrite_language _ nestedPattern h⟩

end Libfsm
