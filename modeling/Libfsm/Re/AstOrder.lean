import Libfsm.Re.AstRewrite

/-!
# The Order Of Alternatives

`ast_expr_cmp` as an order, and what it takes two trees that compare as equal to match.

- `AstExpr.key`: the numbers that are compared, one after another
- `AstExpr.spans`: the matches of a tree, with its anchors
- `astExprCmp_eq_iff_setNl`: two trees compare as equal if they differ in the kinds of their end
  anchors at most
- `decidesMatches_iff`: the order tells the trees of a list apart, and equal alternatives may be
  dropped, exactly if none of them differ in that alone
-/

namespace Libfsm

open Lib AstExpr

variable {a b : AstExpr} {n : List AstExpr}

/-! ## §1 Keys -/

namespace AstExpr

/-- The numbers that are compared for a node itself. -/
def ownKey (e : AstExpr) : List ℕ :=
  e.type :: e.info.flags.toNat :: e.info.reFlags.toNat :: match e with
    | .concat _ n => [n.length]
    | .alt _ n => [n.length]
    | .literal _ c => [c.val]
    | .codepoint _ u => [u.toNat]
    | .repeated _ _ min max => [min, max]
    | .group _ _ id => [id]
    | .anchor _ t _ => [t.toNat]
    | .range _ lo hi => [lo.val, hi.val]
    | _ => []

/-- The numbers that `ast_expr_cmp` compares, in their order: a node comes before its children. -/
def key (e : AstExpr) : List ℕ := e.nodes.flatMap ownKey

end AstExpr

/-- The second comparison is made only if the first one does not decide. -/
theorem then_congr {o p q : Ordering} (h : o = .eq → p = q) : o.then p = o.then q := by
  cases o with
  | eq => exact h rfl
  | _ => rfl

/-- The comparison of a tree's key is that of the tree, whatever follows the key. -/
def ComparesKey (a : AstExpr) : Prop :=
  ∀ b x y, compare (a.key ++ x) (b.key ++ y) = (astExprCmp a b).then (compare x y)

/-- The keys of children follow each other. -/
theorem compare_children {m : List AstExpr} (h : ∀ a ∈ n, ComparesKey a) (x y : List ℕ) :
    (compare n.length m.length).then
        (compare ((nodesOf n).flatMap ownKey ++ x) ((nodesOf m).flatMap ownKey ++ y)) =
      ((compare n.length m.length).then (astExprsCmp n m)).then (compare x y) := by
  rw [Ordering.then_assoc]
  refine then_congr fun hlen => ?_
  replace hlen := compare_eq_iff_eq.mp hlen
  induction n generalizing m with
  | nil =>
    rw [List.length_eq_zero_iff.mp hlen.symm]
    simp [nodesOf, astExprsCmp]
  | cons a n ih =>
    cases m with
    | nil => cases hlen
    | cons b m =>
      have htail := ih (fun a' ha' => h a' (List.mem_cons_of_mem a ha')) (Nat.succ.inj hlen)
      simp only [nodesOf, List.flatMap_append, List.append_assoc]
      rw [← key, ← key, h a List.mem_cons_self, htail, astExprsCmp, Ordering.then_assoc]
      rfl

/-- Only nodes of one type are compared any further. -/
theorem comparesKey_of_type (h : ∀ b, a.type = b.type → ∀ x y,
    compare (a.key ++ x) (b.key ++ y) = (astExprCmp a b).then (compare x y)) : ComparesKey a := by
  have hkey : ∀ e : AstExpr, ∃ l, e.key = e.type :: l := by
    intro e
    cases e <;> simp [key, nodes, ownKey]
  intro b x y
  by_cases htype : a.type = b.type
  · exact h b htype x y
  · obtain ⟨l, hl⟩ := hkey a
    obtain ⟨m, hm⟩ := hkey b
    rw [hl, hm, List.cons_append, List.cons_append, List.compare_cons_cons, astExprCmp,
      astHeaderCmp, Ordering.then_assoc, Ordering.then_assoc]
    exact then_congr fun heq => absurd (compare_eq_iff_eq.mp heq) htype

theorem comparesKey (a : AstExpr) : ComparesKey a := by
  induction a with
  | concat i n ih | alt i n ih =>
    refine comparesKey_of_type fun b htype x y => ?_
    cases b <;> simp [type] at htype
    simp [key, nodes, ownKey, astExprCmp, astHeaderCmp, astBodyCmp, type, Ordering.then_assoc,
      compare_children ih]
  | repeated i e lo hi ih | group i e id ih =>
    refine comparesKey_of_type fun b htype x y => ?_
    cases b <;> simp [type] at htype
    have he := ih
    simp only [ComparesKey, key, astExprCmp] at he
    simp [key, nodes, ownKey, astExprCmp, astHeaderCmp, astBodyCmp, type, Ordering.then_assoc, he]
  | subtract i a₁ a₂ ih₁ ih₂ =>
    refine comparesKey_of_type fun b htype x y => ?_
    cases b <;> simp [type] at htype
    simp only [ComparesKey, key, astExprCmp] at ih₁ ih₂
    simp [key, nodes, ownKey, astExprCmp, astHeaderCmp, astBodyCmp, type, Ordering.then_assoc, ih₁,
      ih₂]
  | _ =>
    refine comparesKey_of_type fun b htype x y => ?_
    cases b <;> simp [type] at htype
    simp [key, nodes, ownKey, astExprCmp, astHeaderCmp, astBodyCmp, type, Ordering.then_assoc]

/-- The order of trees is the lexicographic order of their keys. -/
theorem astExprCmp_eq_compare (a b : AstExpr) : astExprCmp a b = compare a.key b.key := by
  have h := comparesKey a b [] []
  rw [List.append_nil, List.append_nil] at h
  rw [h]
  simp

instance : Std.TransCmp astExprCmp where
  eq_swap {a b} := by
    rw [astExprCmp_eq_compare, astExprCmp_eq_compare]
    exact Std.OrientedOrd.eq_swap
  isLE_trans {a b c} := by
    rw [astExprCmp_eq_compare, astExprCmp_eq_compare, astExprCmp_eq_compare]
    exact Std.TransOrd.isLE_trans

/-- The kinds of the end anchors are not compared. -/
theorem AstExpr.key_setNl (nl : Bool) (e : AstExpr) : (e.setNl nl).key = e.key := by
  have hlist : ∀ n : List AstExpr, (∀ e ∈ n, (e.setNl nl).key = e.key) →
      (nodesOf (setNls nl n)).flatMap ownKey = (nodesOf n).flatMap ownKey := by
    intro n ih
    induction n with
    | nil => rw [setNls]
    | cons e n ihn =>
      rw [setNls, nodesOf, nodesOf, List.flatMap_append, List.flatMap_append, ← key, ← key,
        ih e List.mem_cons_self, ihn fun e he => ih e (List.mem_cons_of_mem _ he)]
  induction e with
  | concat i n ih | alt i n ih =>
    have hkey := hlist n ih
    rw [setNls_eq] at hkey
    simp [key, nodes, ownKey, setNl, type, info, hkey, setNls_eq]
  | repeated i e lo hi ih | group i e id ih =>
    unfold key at ih
    simp [key, nodes, ownKey, setNl, type, info, ih]
  | subtract i a b iha ihb =>
    unfold key at iha ihb
    simp [key, nodes, ownKey, setNl, type, info, iha, ihb]
  | _ => simp [key, nodes, ownKey, setNl, type, info]

/-- Two trees compare as equal exactly if they are equal up to the kinds of their end anchors. -/
theorem astExprCmp_eq_iff_setNl (nl : Bool) : astExprCmp a b = .eq ↔ a.setNl nl = b.setNl nl := by
  refine ⟨setNl_of_astExprCmp nl, fun h => ?_⟩
  rw [astExprCmp_eq_compare, ← key_setNl nl a, ← key_setNl nl b, h]
  exact Std.ReflCmp.compare_self

/-! ## §2 Matches -/

/-- Matches in an input: what comes before, what is matched, and what follows. -/
abbrev Spans := Set (List Byte × List Byte × List Byte)

namespace Spans

/-- Nothing is matched, anywhere. -/
def nothing : Spans := {p | p.2.1 = []}

/-- One match after another. -/
def seq (R S : Spans) : Spans :=
  {p | ∃ x y, p.2.1 = x ++ y ∧ (p.1, x, y ++ p.2.2) ∈ R ∧ (p.1 ++ x, y, p.2.2) ∈ S}

end Spans

namespace AstExpr

mutual

/-- The matches of a tree. -/
def spans : AstExpr → Spans
  | .concat _ n => concatSpans n
  | .alt _ n => altSpans n
  | .repeated _ e min max =>
    {p | ∃ k : ℕ, min ≤ k ∧ (k : ℕ∞) ≤ upperBound max ∧ p ∈ (Spans.seq e.spans)^[k] Spans.nothing}
  | .group _ e _ => e.spans
  | .anchor _ .start _ => {p | p.1 = [] ∧ p.2.1 = []}
  -- the other kind of end anchor also holds before a final newline
  | .anchor _ .fin nl => {p | p.2.1 = [] ∧ (p.2.2 = [] ∨ nl = true ∧ p.2.2 = [10])}
  | .subtract _ a b => a.spans \ b.spans
  | e => {p | p.2.1 ∈ e.language}

def concatSpans : List AstExpr → Spans
  | [] => Spans.nothing
  | e :: n => Spans.seq e.spans (concatSpans n)

def altSpans : List AstExpr → Spans
  | [] => ∅
  | e :: n => e.spans ∪ altSpans n

end

end AstExpr

/-! ## §3 Equivalence -/

/-- What is expected of the order, on the trees of a list: it is an order, trees that compare as
equal are equal and so match the same, and no alternative is lost. -/
structure DecidesMatches (n : List AstExpr) : Prop where
  swap : ∀ a b, astExprCmp a b = (astExprCmp b a).swap
  trans : ∀ a b c, astExprCmp a b ≠ .gt → astExprCmp b c ≠ .gt → astExprCmp a c ≠ .gt
  equal : ∀ a ∈ n, ∀ b ∈ n, astExprCmp a b = .eq → a = b
  sound : ∀ a ∈ n, ∀ b ∈ n, astExprCmp a b = .eq → a.spans = b.spans
  dedup : ∀ e, e ∈ deduplicateAlt n ↔ e ∈ n

/-- `$` -/
def dollar : AstExpr := .anchor {} .fin true

/-- `\z` -/
def strictEnd : AstExpr := .anchor {} .fin false

/-- **The order of trees** is total, whatever the trees.  It tells the trees of a list apart, and
none is dropped but for an equal one, exactly if no two of them differ in the kinds of their end
anchors alone. -/
theorem decidesMatches_iff (n : List AstExpr) :
    DecidesMatches n ↔ ∀ a ∈ n, ∀ b ∈ n, a.setNl true = b.setNl true → a = b := by
  constructor
  · exact fun h a ha b hb heq => h.equal a ha b hb ((astExprCmp_eq_iff_setNl true).mpr heq)
  · intro h
    have hequal : ∀ a ∈ n, ∀ b ∈ n, astExprCmp a b = .eq → a = b :=
      fun a ha b hb hcmp => h a ha b hb ((astExprCmp_eq_iff_setNl true).mp hcmp)
    refine ⟨fun a b => Std.OrientedCmp.eq_swap, fun a b c hab hbc => ?_, hequal,
      fun a ha b hb hcmp => congrArg spans (hequal a ha b hb hcmp),
      fun e => ⟨mem_of_mem_deduplicateAlt, fun he => ?_⟩⟩
    · apply Ordering.ne_gt_iff_isLE.mpr
      exact Std.TransCmp.isLE_trans (Ordering.ne_gt_iff_isLE.mp hab)
        (Ordering.ne_gt_iff_isLE.mp hbc)
    · -- the tree that stays for `e` is `e`
      obtain ⟨d, hd, hset⟩ := exists_mem_deduplicateAlt (setNl_of_astExprCmp true) he
      rwa [← h d (mem_of_mem_deduplicateAlt hd) e he hset]

/-- `$` and `\z` compare as equal, one of them is dropped, and only one holds before a final
newline. -/
theorem not_decidesMatches_endAnchors :
    astExprCmp dollar strictEnd = .eq ∧ (deduplicateAlt [dollar, strictEnd]).length = 1 ∧
      dollar.spans ≠ strictEnd.spans ∧ ¬ DecidesMatches [dollar, strictEnd] := by
  have hcmp : astExprCmp dollar strictEnd = .eq := by decide
  have hne : dollar.spans ≠ strictEnd.spans := by
    intro heq
    have hmem : ([], [], [10]) ∈ dollar.spans := by simp [dollar, spans]
    rw [heq] at hmem
    simp [strictEnd, spans] at hmem
  exact ⟨hcmp, by decide, hne, fun h => hne (h.sound _ (by simp) _ (by simp) hcmp)⟩

end Libfsm
