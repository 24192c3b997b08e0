import Libfsm.Lib.StateElimination
import Libfsm.Ops.Product
import Libfsm.Re.AstRewrite

/-!
# From An FSM To A Regular Expression

`ast_new_from_fsm` copies an FSM into states whose edges carry expressions, removes the states one
by one, and reads the result off the single edge that is left.

- `Restates`: the states and edges, `struct rese`
- `removeState`: the removal of a state
- `astExprNewFromFsm`, `astNewFromFsm`: the conversion
- `astNewFromFsm_language`: the expression stands for the strings the FSM accepts
-/

namespace Libfsm

open Lib AstExpr Language
open List hiding concat nil cons

variable {e : AstExpr} {i : AstInfo} {b : Option AstExpr} {w : List Byte} {dst n p s src : ℕ}
  {f : Fsm}

/-! ## §1 Model -/

/-- `struct rese` for an edge between two states.  Its expression is never null. -/
structure ReEdge where
  src : ℕ
  dst : ℕ
  expr : AstExpr
deriving Repr

/-- The states, which double as the self-edges, and the edges between them.  The two circular lists
an edge is on are the edges of its source and those of its destination; both are kept in the order
of the states, so they are parts of one list ordered by source and destination. -/
structure Restates where
  self : List (Option AstExpr)
  edges : List ReEdge
deriving Repr

def buildRestates (numstates : ℕ) : Restates := ⟨replicate numstates none, []⟩

/-- The expression of a self-edge, which may be null. -/
def Restates.selfExpr (r : Restates) (s : ℕ) : Option AstExpr := (r.self[s]?).join

/-- The edges from a state to others, by `succnext` -/
def Restates.succs (r : Restates) (s : ℕ) : List ReEdge := r.edges.filter fun e => e.src = s

/-- The edges from others to a state, by `prednext` -/
def Restates.preds (r : Restates) (s : ℕ) : List ReEdge := r.edges.filter fun e => e.dst = s

def changeToAlt : AstExpr → AstExpr
  | .alt i n => .alt i n
  | e => .alt {} [e]

def astAddExprAlt (alt node : AstExpr) : AstExpr :=
  match alt with
  | .alt i n => .alt i (n ++ [node])
  | e => e

/-- An expression becomes that of an edge, or one more alternative of it. -/
def addTo (old : Option AstExpr) (expr : AstExpr) : AstExpr :=
  match old with
  | none => expr
  | some old => astAddExprAlt (changeToAlt old) expr

/-- `build_reedge` for two different states, with the expression its caller then gives the edge:
the edge is found, or put in at its place. -/
def insertEdge (src dst : ℕ) (expr : AstExpr) : List ReEdge → List ReEdge
  | [] => [⟨src, dst, expr⟩]
  | e :: l =>
    if e.src = src ∧ e.dst = dst then { e with expr := addTo (some e.expr) expr } :: l
    else if src < e.src ∨ (src = e.src ∧ dst < e.dst) then ⟨src, dst, expr⟩ :: e :: l
    else e :: insertEdge src dst expr l

/-- The same for an edge that is known to be there. -/
def alterEdge (src dst : ℕ) (expr : AstExpr) (l : List ReEdge) : List ReEdge :=
  l.map fun e =>
    if e.src = src ∧ e.dst = dst then { e with expr := addTo (some e.expr) expr } else e

/-- A self-edge gets one more expression. -/
def Restates.addSelf (r : Restates) (s : ℕ) (expr : AstExpr) : Restates :=
  { r with self := r.self.set s (some (addTo (r.selfExpr s) expr)) }

def buildEdgeExpr (r : Restates) (src dst : ℕ) (expr : AstExpr) : Restates :=
  if src = dst then r.addSelf src expr
  else { r with edges := insertEdge src dst expr r.edges }

def buildEdgeLiteral (r : Restates) (src dst : ℕ) (c : Byte) : Restates :=
  buildEdgeExpr r src dst (.literal {} c)

def buildEdgeEpsilon (r : Restates) (src dst : ℕ) : Restates :=
  buildEdgeExpr r src dst (.empty {})

/-- The edges of one state, in the order of `fsm_walk_edges`. -/
def walkEdges (f : Fsm) (r : Restates) (s : ℕ) : Restates :=
  -- a labelled edge is read through `struct fsm_edge`
  let r := (edgeSetEdges (f.state s).edges).foldl
    (fun r e => buildEdgeLiteral r s e.state.toNat e.symbol) r
  (f.state s).epsilons.toList.foldl (fun r t => buildEdgeEpsilon r s t) r

/-- The cursor over the successors of a state moves on to the first one that is not before `dst`;
`none` once it has come around to the state itself. -/
def advance (succs : List ReEdge) (cursor : Option ℕ) (dst : ℕ) : Option ℕ :=
  cursor.bind fun k =>
    ((succs.dropWhile fun e => e.dst ≠ k).dropWhile fun e => e.dst < dst).head?.map ReEdge.dst

/-- `AB*C` for the edges `A` into and `C` out of a state with self-edge `B`. -/
def throughExpr (a : AstExpr) (b : Option AstExpr) (c : AstExpr) : AstExpr :=
  .concat {} ([a] ++ (b.map fun b => .repeated {} b 0 astCountUnbounded).toList ++ [c])

/-- The inner loop of `remove_state`, for an edge `p` into the state and an edge `s` out of it. -/
def joinEdges (b : Option AstExpr) (p : ReEdge) (rps : Restates × Option ℕ) (s : ReEdge) :
    Restates × Option ℕ :=
  let r := rps.1
  let cat := throughExpr p.expr b s.expr
  if p.src = s.dst then (r.addSelf p.src cat, rps.2)
  else
    let ps := advance (r.succs p.src) rps.2 s.dst
    if ps = some s.dst then ({ r with edges := alterEdge p.src s.dst cat r.edges }, ps)
    else ({ r with edges := insertEdge p.src s.dst cat r.edges }, some s.dst)

def freeRestate (r : Restates) (state : ℕ) : Restates :=
  { self := r.self.set state none
    edges := r.edges.filter fun e => e.src ≠ state ∧ e.dst ≠ state }

def removeState (r : Restates) (state : ℕ) : Restates :=
  -- the edges into and out of the state do not change in the loops
  let joined := (r.preds state).foldl (fun r' p =>
    ((r.succs state).foldl (joinEdges (r.selfExpr state) p)
      (r', (r'.succs p.src).head?.map ReEdge.dst)).1) r
  freeRestate joined state

/-- The copy of an FSM, with edges to an artificial end state. -/
def fsmRestates (f : Fsm) : Restates :=
  let r := (range f.statecount).foldl (walkEdges f) (buildRestates (f.statecount + 1))
  (range f.statecount).foldl
    (fun r s => if fsmIsend f s then buildEdgeEpsilon r s f.statecount else r) r

def astExprNewFromFsm (f : Fsm) : AstExpr :=
  match fsmGetstart f with
  | none => .tombstone {}
  | some start =>
    let r := (range f.statecount).foldl
      (fun r s => if s = start then r else removeState r s) (fsmRestates f)
    match (r.succs start).head? with
    | none => .tombstone {}
    | some e =>
      if e.dst ≠ f.statecount then .tombstone {}
      else
        match r.selfExpr start with
        | none => e.expr
        | some b => .concat {} [.repeated {} b 0 astCountUnbounded, e.expr]

def astNewFromFsm (compileSubexpr : CompileSubexpr) (f : Fsm) : Option AstExpr :=
  rewrite compileSubexpr (astExprNewFromFsm f)

/-! ## §2 Expressions -/

namespace AstExpr

/-- What an expression made by the conversion may contain. -/
def BuiltNode : AstExpr → Prop
  | .alt _ n => n ≠ []
  | .repeated _ _ min max => min = 0 ∧ max = astCountUnbounded
  | .anchor _ _ _ => False
  | .subtract _ _ _ => False
  | _ => True

/-- An expression made by the conversion. -/
def Built (e : AstExpr) : Prop := ∀ d ∈ e.nodes, d.BuiltNode

theorem Built.rewritable (he : e.Built) : e.Rewritable where
  noAnchor d hd := by
    have hnode := he d hd
    cases d with
    | anchor => exact absurd hnode id
    | _ => rfl
  noSubtract d hd := by
    have hnode := he d hd
    cases d with
    | subtract => exact absurd hnode id
    | _ => rfl
  altNonempty i n hd := he (.alt i n) hd
  counts i d lo hi hd := by
    obtain ⟨rfl, rfl⟩ := he (.repeated i d lo hi) hd
    rw [nestedCount_repeated, boundedCount, if_pos rfl, zero_mul]
    exact ⟨Nat.zero_le _, le_rfl, by decide⟩

theorem built_concat {n : List AstExpr} (hn : ∀ e ∈ n, e.Built) : (concat i n).Built := by
  intro d hd
  rcases mem_nodes_concat.mp hd with rfl | ⟨e, he, hd⟩
  · trivial
  · exact hn e he d hd

theorem built_alt_iff {n : List AstExpr} : (alt i n).Built ↔ n ≠ [] ∧ ∀ e ∈ n, e.Built := by
  simp only [Built, mem_nodes_alt, forall_eq_or_imp, forall_exists_index, and_imp]
  exact and_congr_right fun _ => ⟨fun h e he d => h d e he, fun h d e he => h e he d⟩

theorem built_star (he : e.Built) : (repeated i e 0 astCountUnbounded).Built := by
  intro d hd
  rcases mem_nodes_repeated.mp hd with rfl | hd
  · exact ⟨rfl, rfl⟩
  · exact he d hd

end AstExpr

/-- The strings of an expression that may be missing. -/
def optLanguage (o : Option AstExpr) : Language Byte := o.elim 0 language

@[simp] theorem optLanguage_none : optLanguage none = 0 := rfl

@[simp] theorem optLanguage_some (e : AstExpr) : optLanguage (some e) = e.language := rfl

theorem changeToAlt_spec (e : AstExpr) : ∃ i n, changeToAlt e = .alt i n ∧
    (AstExpr.alt i n).language = e.language ∧ (e.Built → ∀ d ∈ n, d.Built) := by
  cases e with
  | alt i n => exact ⟨i, n, rfl, rfl, fun h => (built_alt_iff.mp h).2⟩
  | _ =>
    refine ⟨{}, [_], rfl, ?_, fun h d hd => ?_⟩
    · rw [language_alt, map_singleton, sum_singleton]
    · rw [List.mem_singleton.mp hd]
      exact h

/-- The strings of an edge that gets one more expression. -/
theorem language_addTo (old : Option AstExpr) (e : AstExpr) :
    (addTo old e).language = optLanguage old + e.language := by
  cases old with
  | none => rw [optLanguage_none, zero_add, addTo]
  | some d =>
    obtain ⟨i, n, heq, hlang, -⟩ := changeToAlt_spec d
    rw [addTo, heq, astAddExprAlt, language_alt, map_append, sum_append,
      map_singleton, sum_singleton, optLanguage_some, ← hlang, language_alt]

theorem built_addTo {old : Option AstExpr} (hold : ∀ d ∈ old, d.Built) (he : e.Built) :
    (addTo old e).Built := by
  cases old with
  | none => exact he
  | some d =>
    obtain ⟨i, n, heq, -, hbuilt⟩ := changeToAlt_spec d
    rw [addTo, heq, astAddExprAlt, built_alt_iff]
    refine ⟨by simp, fun c hc => ?_⟩
    rcases mem_append.mp hc with hc | hc
    · exact hbuilt (hold d rfl) c hc
    · rw [List.mem_singleton.mp hc]
      exact he

theorem language_throughExpr (a : AstExpr) (b : Option AstExpr) (c : AstExpr) :
    (throughExpr a b c).language = a.language * KStar.kstar (optLanguage b) * c.language := by
  cases b with
  | none => simp [throughExpr]
  | some b => simp [throughExpr, repeats_zero_top, mul_assoc]

theorem built_throughExpr {a c : AstExpr} (ha : a.Built) (hb : ∀ d ∈ b, d.Built) (hc : c.Built) :
    (throughExpr a b c).Built := by
  apply built_concat
  intro d hd
  cases b with
  | none =>
    simp only [Option.map_none, Option.toList_none, append_nil, mem_append,
      List.mem_singleton] at hd
    rcases hd with rfl | rfl
    · exact ha
    · exact hc
  | some b =>
    simp only [Option.map_some, Option.toList_some, mem_append, List.mem_singleton] at hd
    rcases hd with (rfl | rfl) | rfl
    · exact ha
    · exact built_star (hb b rfl)
    · exact hc

/-- An expression made by the conversion that stands for at least one string. -/
structure AstExpr.Proper (e : AstExpr) : Prop where
  built : e.Built
  nonempty : ∃ w, w ∈ e.language

theorem proper_addTo {old : Option AstExpr} (hold : ∀ d ∈ old, d.Proper) (he : e.Proper) :
    (addTo old e).Proper := by
  refine ⟨built_addTo (fun d hd => (hold d hd).built) he.built, ?_⟩
  obtain ⟨w, hw⟩ := he.nonempty
  refine ⟨w, ?_⟩
  rw [language_addTo]
  exact .inr hw

theorem proper_throughExpr {a c : AstExpr} (ha : a.Proper) (hb : ∀ d ∈ b, d.Proper)
    (hc : c.Proper) : (throughExpr a b c).Proper := by
  refine ⟨built_throughExpr ha.built (fun d hd => (hb d hd).built) hc.built, ?_⟩
  obtain ⟨u, hu⟩ := ha.nonempty
  obtain ⟨v, hv⟩ := hc.nonempty
  refine ⟨u ++ [] ++ v, ?_⟩
  rw [language_throughExpr]
  exact append_mem_mul (append_mem_mul hu (nil_mem_kstar _)) hv

theorem mem_language_literal {c : Byte} : w ∈ (AstExpr.literal {} c).language ↔ w = [c] := by
  show (∃ d ∈ [c], w = [d]) ↔ w = [c]
  simp

theorem proper_literal (c : Byte) : (AstExpr.literal {} c).Proper := by
  refine ⟨fun d hd => ?_, [c], mem_language_literal.mpr rfl⟩
  rw [nodes, List.mem_singleton] at hd
  · rw [hd]
    trivial
  all_goals simp

theorem proper_empty : (AstExpr.empty {}).Proper := by
  refine ⟨fun d hd => ?_, [], ?_⟩
  · rw [nodes, List.mem_singleton] at hd
    · rw [hd]
      trivial
    all_goals simp
  · exact nil_mem_one

/-! ## §3 The Graph -/

variable {r : Restates} {l : List ReEdge}

namespace Restates

/-- The graph that states and edges stand for. -/
def graph (r : Restates) (p s : ℕ) : Language Byte :=
  {w | (p = s ∧ w ∈ optLanguage (r.selfExpr p)) ∨
    ∃ e ∈ r.edges, e.src = p ∧ e.dst = s ∧ w ∈ e.expr.language}

theorem mem_graph : w ∈ r.graph p s ↔
    (p = s ∧ w ∈ optLanguage (r.selfExpr p)) ∨
      ∃ e ∈ r.edges, e.src = p ∧ e.dst = s ∧ w ∈ e.expr.language := Iff.rfl

/-- The order of the edges. -/
def EdgeLt (a b : ReEdge) : Prop := a.src < b.src ∨ (a.src = b.src ∧ a.dst < b.dst)

/-- What holds between the steps of the conversion, for `n` states and the artificial end state,
which nothing leaves. -/
structure Ok (r : Restates) (n : ℕ) : Prop where
  length_self : r.self.length = n + 1
  self_end : r.selfExpr n = none
  src_lt : ∀ e ∈ r.edges, e.src < n
  sorted : r.edges.Pairwise EdgeLt
  loopless : ∀ e ∈ r.edges, e.src ≠ e.dst
  proper_self : ∀ s, ∀ e ∈ r.selfExpr s, e.Proper
  proper_edges : ∀ e ∈ r.edges, e.expr.Proper

/-- `r'` is `r` with further strings on its edges. -/
def Adds (r r' : Restates) (E : ℕ → ℕ → List Byte → Prop) : Prop :=
  ∀ p s w, w ∈ r'.graph p s ↔ w ∈ r.graph p s ∨ E p s w

/-- The strings of a language on the edge between two states. -/
def On (p s : ℕ) (L : Language Byte) (p' s' : ℕ) (w : List Byte) : Prop :=
  p' = p ∧ s' = s ∧ w ∈ L

end Restates

open Restates

theorem selfExpr_addSelf {t : ℕ} (hs : s < r.self.length) :
    (r.addSelf s e).selfExpr t =
      if t = s then some (addTo (r.selfExpr s) e) else r.selfExpr t := by
  rw [selfExpr, addSelf, getElem?_set]
  by_cases h : s = t
  · rw [if_pos h, if_pos hs, if_pos h.symm]
    rfl
  · rw [if_neg h, if_neg (Ne.symm h)]
    rfl

theorem addSelf_adds (hs : s < r.self.length) : r.Adds (r.addSelf s e) (On s s e.language) := by
  intro p t w
  rw [mem_graph, mem_graph, selfExpr_addSelf hs, On]
  by_cases hp : p = s
  · subst hp
    rw [if_pos rfl, optLanguage_some, language_addTo]
    show _ ∨ (∃ d ∈ r.edges, _) ↔ _
    by_cases ht : p = t
    · subst ht
      simp only [true_and]
      exact or_right_comm
    · simp [ht, Ne.symm ht]
  · simp only [hp, false_and, or_false]
    rfl

theorem addSelf_ok (hr : r.Ok n) (hs : s < n) (he : e.Proper) : (r.addSelf s e).Ok n where
  length_self := by rw [addSelf, length_set, hr.length_self]
  self_end := by
    rw [selfExpr_addSelf (hr.length_self ▸ hs.trans (Nat.lt_succ_self n)), if_neg hs.ne',
      hr.self_end]
  src_lt := hr.src_lt
  sorted := hr.sorted
  loopless := hr.loopless
  proper_edges := hr.proper_edges
  proper_self t d hd := by
    rw [selfExpr_addSelf (hr.length_self ▸ hs.trans (Nat.lt_succ_self n))] at hd
    split at hd
    · rw [← Option.some.inj hd]
      exact proper_addTo (hr.proper_self s) he
    · exact hr.proper_self t d hd

/-- The edges after an insertion: those before it, and the new strings. -/
theorem mem_insertEdge :
    (∃ d ∈ insertEdge src dst e l, d.src = p ∧ d.dst = s ∧ w ∈ d.expr.language) ↔
      (∃ d ∈ l, d.src = p ∧ d.dst = s ∧ w ∈ d.expr.language) ∨
        (p = src ∧ s = dst ∧ w ∈ e.language) := by
  induction l with
  | nil => simp [insertEdge, eq_comm]
  | cons d l ih =>
    rw [insertEdge]
    split
    · rename_i heq
      obtain ⟨rfl, rfl⟩ := heq
      simp only [exists_mem_cons_iff, language_addTo, optLanguage_some, mem_add]
      constructor
      · rintro (⟨rfl, rfl, h | h⟩ | h)
        · exact .inl (.inl ⟨rfl, rfl, h⟩)
        · exact .inr ⟨rfl, rfl, h⟩
        · exact .inl (.inr h)
      · rintro ((⟨rfl, rfl, h⟩ | h) | ⟨rfl, rfl, h⟩)
        · exact .inl ⟨rfl, rfl, .inl h⟩
        · exact .inr h
        · exact .inl ⟨rfl, rfl, .inr h⟩
    · split
      · simp only [exists_mem_cons_iff]
        rw [or_comm, eq_comm (a := src), eq_comm (a := dst)]
      · rw [exists_mem_cons_iff, exists_mem_cons_iff, ih, or_assoc]

theorem mem_insertEdge_cases {d : ReEdge} (hd : d ∈ insertEdge src dst e l) :
    d ∈ l ∨ (d.src = src ∧ d.dst = dst ∧
      (d.expr = e ∨ ∃ d' ∈ l, d.expr = addTo (some d'.expr) e)) := by
  induction l with
  | nil =>
    rw [insertEdge, List.mem_singleton] at hd
    subst hd
    exact .inr ⟨rfl, rfl, .inl rfl⟩
  | cons c l ih =>
    rw [insertEdge] at hd
    split at hd
    · rename_i heq
      rcases mem_cons.mp hd with rfl | hd
      · exact .inr ⟨heq.1, heq.2, .inr ⟨c, mem_cons_self .., rfl⟩⟩
      · exact .inl (mem_cons_of_mem c hd)
    · split at hd
      · rcases mem_cons.mp hd with rfl | hd
        · exact .inr ⟨rfl, rfl, .inl rfl⟩
        · exact .inl hd
      · rcases mem_cons.mp hd with rfl | hd
        · exact .inl (mem_cons_self ..)
        · rcases ih hd with h | ⟨hs, ht, h | ⟨d', hd', h⟩⟩
          · exact .inl (mem_cons_of_mem c h)
          · exact .inr ⟨hs, ht, .inl h⟩
          · exact .inr ⟨hs, ht, .inr ⟨d', mem_cons_of_mem c hd', h⟩⟩

theorem pairwise_insertEdge (h : l.Pairwise EdgeLt) : (insertEdge src dst e l).Pairwise EdgeLt := by
  induction l with
  | nil => exact pairwise_singleton ..
  | cons c l ih =>
    obtain ⟨hc, hl⟩ := pairwise_cons.mp h
    rw [insertEdge]
    split
    · exact pairwise_cons.mpr ⟨hc, hl⟩
    · split
      · rename_i hlt
        refine pairwise_cons.mpr ⟨fun d hd => ?_, h⟩
        rcases mem_cons.mp hd with rfl | hd
        · exact hlt
        · have hcd := hc d hd
          simp only [EdgeLt] at hcd hlt ⊢
          omega
      · refine pairwise_cons.mpr ⟨fun d hd => ?_, ih hl⟩
        rcases mem_insertEdge_cases hd with hd | ⟨hsrc, hdst, -⟩
        · exact hc d hd
        · simp only [EdgeLt, hsrc, hdst]
          omega

/-- Changing an edge that is there is the same as inserting it. -/
theorem alterEdge_eq_insertEdge (h : l.Pairwise EdgeLt)
    (hmem : ∃ d ∈ l, d.src = src ∧ d.dst = dst) :
    alterEdge src dst e l = insertEdge src dst e l := by
  induction l with
  | nil =>
    obtain ⟨d, hd, -⟩ := hmem
    cases hd
  | cons c l ih =>
    obtain ⟨hc, hl⟩ := pairwise_cons.mp h
    rw [alterEdge, map_cons, insertEdge]
    by_cases heq : c.src = src ∧ c.dst = dst
    · -- no later edge is between the same states
      rw [if_pos heq, if_pos heq]
      refine congrArg _ ((map_congr_left fun d hd => ?_).trans (map_id l))
      have hcd := hc d hd
      rw [if_neg]
      · rfl
      · simp only [EdgeLt] at hcd
        omega
    · obtain ⟨d, hd, hsrc, hdst⟩ := hmem
      rcases mem_cons.mp hd with rfl | hd
      · exact absurd ⟨hsrc, hdst⟩ heq
      · have hcd := hc d hd
        rw [if_neg heq, if_neg heq, if_neg]
        · exact congrArg _ (ih hl ⟨d, hd, hsrc, hdst⟩)
        · simp only [EdgeLt] at hcd
          omega

theorem insertEdge_adds :
    r.Adds { r with edges := insertEdge p s e r.edges } (On p s e.language) := by
  intro p' s' w
  rw [mem_graph, mem_insertEdge, ← or_assoc]
  rfl

theorem insertEdge_ok (hr : r.Ok n) (hp : p < n) (hps : p ≠ s) (he : e.Proper) :
    ({ r with edges := insertEdge p s e r.edges } : Restates).Ok n where
  length_self := hr.length_self
  self_end := hr.self_end
  src_lt d hd := by
    rcases mem_insertEdge_cases hd with hd | ⟨hsrc, -, -⟩
    · exact hr.src_lt d hd
    · rwa [hsrc]
  sorted := pairwise_insertEdge hr.sorted
  proper_self := hr.proper_self
  loopless d hd := by
    rcases mem_insertEdge_cases hd with hd | ⟨hsrc, hdst, -⟩
    · exact hr.loopless d hd
    · rwa [hsrc, hdst]
  proper_edges d hd := by
    rcases mem_insertEdge_cases hd with hd | ⟨-, -, h | ⟨d', hd', h⟩⟩
    · exact hr.proper_edges d hd
    · rwa [h]
    · rw [h]
      refine proper_addTo (fun c hc => ?_) he
      rw [← Option.some.inj hc]
      exact hr.proper_edges d' hd'

theorem buildEdgeExpr_spec (dst : ℕ) (hr : r.Ok n) (hsrc : src < n) (he : e.Proper) :
    (buildEdgeExpr r src dst e).Ok n ∧
      r.Adds (buildEdgeExpr r src dst e) (On src dst e.language) := by
  rw [buildEdgeExpr]
  split
  · rename_i heq
    subst heq
    exact ⟨addSelf_ok hr hsrc he, addSelf_adds (hr.length_self ▸ hsrc.trans (Nat.lt_succ_self n))⟩
  · rename_i hne
    exact ⟨insertEdge_ok hr hsrc hne he, insertEdge_adds⟩

/-- A loop whose steps add strings adds those of all its steps. -/
theorem foldl_adds {σ β : Type*} (states : σ → Restates) (step : σ → β → σ)
    (E : β → ℕ → ℕ → List Byte → Prop) (l : List β)
    (hstep : ∀ x ∈ l, ∀ a, (states a).Ok n →
      (states (step a x)).Ok n ∧ (states a).Adds (states (step a x)) (E x)) (a : σ)
    (ha : (states a).Ok n) : (states (l.foldl step a)).Ok n ∧
      (states a).Adds (states (l.foldl step a)) fun p s w => ∃ x ∈ l, E x p s w := by
  induction l generalizing a with
  | nil => exact ⟨ha, fun p s w => by simp⟩
  | cons x l ih =>
    obtain ⟨hok, hadds⟩ := hstep x (mem_cons_self ..) a ha
    obtain ⟨hok', hadds'⟩ := ih (fun y hy => hstep y (mem_cons_of_mem x hy)) _ hok
    refine ⟨hok', fun p s w => ?_⟩
    simp only [foldl_cons, hadds' p s w, hadds p s w, or_assoc, exists_mem_cons_iff]

/-! ## §4 Removing A State -/

theorem mem_of_advance {cursor : Option ℕ} (h : advance (r.succs p) cursor dst = some dst) :
    ∃ d ∈ r.edges, d.src = p ∧ d.dst = dst := by
  obtain ⟨k, rfl, hk⟩ := Option.bind_eq_some_iff.mp h
  obtain ⟨d, hd, hdst⟩ := Option.map_eq_some_iff.mp hk
  have hmem : d ∈ r.succs p :=
    (dropWhile_suffix _).subset ((dropWhile_suffix _).subset (mem_of_mem_head? hd))
  obtain ⟨hedge, hsrc⟩ := mem_filter.mp hmem
  exact ⟨d, hedge, of_decide_eq_true hsrc, hdst⟩

/-- One step of the inner loop.  Where the cursor stands makes no difference: the edge that is
changed is the one between the two states, found or inserted. -/
theorem joinEdges_spec {p s : ReEdge} (hp : p.src < n) (hpb : p.expr.Proper)
    (hb : ∀ d ∈ b, d.Proper) (hsb : s.expr.Proper) (rps : Restates × Option ℕ) (hr : rps.1.Ok n) :
    (joinEdges b p rps s).1.Ok n ∧ rps.1.Adds (joinEdges b p rps s).1
      (On p.src s.dst (p.expr.language * KStar.kstar (optLanguage b) * s.expr.language)) := by
  have hproper := proper_throughExpr hpb hb hsb
  rw [← language_throughExpr, joinEdges]
  split
  · rename_i heq
    rw [← heq]
    exact ⟨addSelf_ok hr hp hproper, addSelf_adds (hr.length_self ▸ hp.trans (Nat.lt_succ_self n))⟩
  · rename_i hne
    dsimp only
    split
    · rename_i hcursor
      rw [alterEdge_eq_insertEdge hr.sorted (mem_of_advance hcursor)]
      exact ⟨insertEdge_ok hr hp hne hproper, insertEdge_adds⟩
    · exact ⟨insertEdge_ok hr hp hne hproper, insertEdge_adds⟩

theorem mem_graph_of_ne (h : p ≠ s) :
    w ∈ r.graph p s ↔ ∃ e ∈ r.edges, e.src = p ∧ e.dst = s ∧ w ∈ e.expr.language := by
  rw [mem_graph]
  simp [h]

theorem mem_graph_self (hr : r.Ok n) : w ∈ r.graph s s ↔ w ∈ optLanguage (r.selfExpr s) := by
  refine ⟨fun h => ?_, fun h => .inl ⟨rfl, h⟩⟩
  rcases h with ⟨-, h⟩ | ⟨e, he, hsrc, hdst, -⟩
  · exact h
  · exact absurd (hsrc.trans hdst.symm) (hr.loopless e he)

theorem graph_self (hr : r.Ok n) : r.graph s s = optLanguage (r.selfExpr s) := by
  ext w
  exact mem_graph_self hr

theorem freeRestate_ok {state : ℕ} (hr : r.Ok n) : (freeRestate r state).Ok n where
  length_self := by rw [freeRestate, length_set, hr.length_self]
  self_end := by
    rw [selfExpr, freeRestate, getElem?_set]
    split
    · split <;> rfl
    · exact hr.self_end
  src_lt e he := hr.src_lt e (mem_filter.mp he).1
  sorted := hr.sorted.filter _
  loopless e he := hr.loopless e (mem_filter.mp he).1
  proper_edges e he := hr.proper_edges e (mem_filter.mp he).1
  proper_self s e he := by
    rw [selfExpr, freeRestate, getElem?_set] at he
    split at he
    · split at he <;> exact absurd he (by simp)
    · exact hr.proper_self s e he

theorem mem_graph_freeRestate {state : ℕ} :
    w ∈ (freeRestate r state).graph p s ↔ p ≠ state ∧ s ≠ state ∧ w ∈ r.graph p s := by
  have hself : optLanguage ((freeRestate r state).selfExpr p) =
      if p = state then 0 else optLanguage (r.selfExpr p) := by
    rw [selfExpr, freeRestate, getElem?_set]
    by_cases h : state = p
    · rw [if_pos h, if_pos h.symm]
      split <;> rfl
    · rw [if_neg h, if_neg (Ne.symm h)]
      rfl
  rw [mem_graph, hself]
  constructor
  · rintro (⟨rfl, hw⟩ | ⟨e, he, rfl, rfl, hw⟩)
    · split at hw
      · exact absurd hw (notMem_zero w)
      · rename_i hne
        exact ⟨hne, hne, .inl ⟨rfl, hw⟩⟩
    · obtain ⟨he, hne⟩ := mem_filter.mp he
      obtain ⟨hsrc, hdst⟩ := of_decide_eq_true hne
      exact ⟨hsrc, hdst, .inr ⟨e, he, rfl, rfl, hw⟩⟩
  · rintro ⟨hp, hs, ⟨rfl, hw⟩ | ⟨e, he, rfl, rfl, hw⟩⟩
    · exact .inl ⟨rfl, by rwa [if_neg hp]⟩
    · exact .inr ⟨e, mem_filter.mpr ⟨he, decide_eq_true ⟨hp, hs⟩⟩, rfl, rfl, hw⟩

/-- Removing a state from the edges is eliminating it from the graph. -/
theorem removeState_spec (state : ℕ) (hr : r.Ok n) :
    (removeState r state).Ok n ∧ (removeState r state).graph = eliminate r.graph state := by
  obtain ⟨hok, hadds⟩ := foldl_adds (n := n) (fun r' => r')
    (fun r' p => ((r.succs state).foldl (joinEdges (r.selfExpr state) p)
      (r', (r'.succs p.src).head?.map ReEdge.dst)).1)
    (fun p p' s' w => ∃ s ∈ r.succs state, On p.src s.dst
      (p.expr.language * KStar.kstar (optLanguage (r.selfExpr state)) * s.expr.language) p' s' w)
    (r.preds state) (fun p hp r' hr' => by
      have hpmem := (mem_filter.mp hp).1
      refine foldl_adds Prod.fst _ _ (r.succs state) (fun s hs rps hrps => ?_) _ hr'
      exact joinEdges_spec (hr.src_lt p hpmem) (hr.proper_edges p hpmem) (hr.proper_self state)
        (hr.proper_edges s (mem_filter.mp hs).1) rps hrps) r hr
  refine ⟨freeRestate_ok hok, ?_⟩
  funext p s
  ext w
  rw [removeState, mem_graph_freeRestate, mem_eliminate]
  refine and_congr_right fun hp => and_congr_right fun hs => ?_
  rw [hadds p s w]
  refine or_congr_right ?_
  -- the pairs of edges into and out of the state, as a product of languages
  rw [graph_self hr]
  constructor
  · rintro ⟨a, ha, c, hc, rfl, rfl, hw⟩
    obtain ⟨ha, hadst⟩ := mem_filter.mp ha
    obtain ⟨hc, hcsrc⟩ := mem_filter.mp hc
    obtain ⟨x, hx, z, hz, rfl⟩ := mem_mul.mp hw
    obtain ⟨u, hu, v, hv, rfl⟩ := mem_mul.mp hx
    refine append_mem_mul (append_mem_mul ?_ hv) ?_
    · exact mem_graph.mpr (.inr ⟨a, ha, rfl, of_decide_eq_true hadst, hu⟩)
    · exact mem_graph.mpr (.inr ⟨c, hc, of_decide_eq_true hcsrc, rfl, hz⟩)
  · intro hw
    obtain ⟨x, hx, z, hz, rfl⟩ := mem_mul.mp hw
    obtain ⟨u, hu, v, hv, rfl⟩ := mem_mul.mp hx
    obtain ⟨a, ha, hasrc, hadst, hu⟩ := (mem_graph_of_ne hp).mp hu
    obtain ⟨c, hc, hcsrc, hcdst, hz⟩ := (mem_graph_of_ne hs.symm).mp hz
    refine ⟨a, mem_filter.mpr ⟨ha, decide_eq_true hadst⟩, c,
      mem_filter.mpr ⟨hc, decide_eq_true hcsrc⟩, hasrc.symm, hcdst.symm, ?_⟩
    exact append_mem_mul (append_mem_mul hu hv) hz

/-! ## §5 The Copy Of An FSM -/

/-- The automaton that is read when destinations come through `struct fsm_edge`, whose state field
has 24 bits. -/
def Fsm.narrowNfa (f : Fsm) : εNFA Byte ℕ where
  step s o :=
    match o with
    | some c => {t | ∃ u, f.Edge s c u ∧ t = u % 2 ^ 24}
    | none => {t | f.Eps s t}
  start := {s | f.start = some s}
  accept := {s | f.IsEnd s}

/-- The strings on the edges that an FSM is copied to. -/
def Fsm.Copied (f : Fsm) (p s : ℕ) (w : List Byte) : Prop :=
  (∃ c, s ∈ f.narrowNfa.step p (some c) ∧ w = [c]) ∨ (s ∈ f.narrowNfa.step p none ∧ w = []) ∨
    (f.IsEnd p ∧ s = f.statecount ∧ w = [])

theorem walkEdges_spec (hr : r.Ok f.statecount) (hs : s < f.statecount) :
    (walkEdges f r s).Ok f.statecount ∧
      r.Adds (walkEdges f r s) fun p t w => p = s ∧
        ((∃ c, t ∈ f.narrowNfa.step p (some c) ∧ w = [c]) ∨
          (t ∈ f.narrowNfa.step p none ∧ w = [])) := by
  obtain ⟨hlok, hladds⟩ := foldl_adds (n := f.statecount) (fun r => r)
    (fun r (e : FsmEdge) => buildEdgeLiteral r s e.state.toNat e.symbol) _
    (edgeSetEdges (f.state s).edges)
    (fun e _ r hr => buildEdgeExpr_spec _ hr hs (proper_literal e.symbol)) r hr
  obtain ⟨heok, headds⟩ := foldl_adds (n := f.statecount) (fun r => r)
    (fun r (t : ℕ) => buildEdgeEpsilon r s t) _ (f.state s).epsilons.toList
    (fun t _ r hr => buildEdgeExpr_spec _ hr hs proper_empty) _ hlok
  refine ⟨heok, fun p t w => ?_⟩
  rw [walkEdges, headds p t w, hladds p t w, or_assoc]
  refine or_congr_right ?_
  constructor
  · rintro (⟨e, he, rfl, rfl, hw⟩ | ⟨u, hu, rfl, rfl, hw⟩)
    · obtain ⟨u, hu, hstate⟩ := mem_edgeSetEdges.mp he
      refine ⟨rfl, .inl ⟨e.symbol, ⟨u, hu, ?_⟩, mem_language_literal.mp hw⟩⟩
      rw [hstate, BitVec.toNat_ofNat]
    · exact ⟨rfl, .inr ⟨hu, hw⟩⟩
  · rintro ⟨rfl, ⟨c, ⟨u, hu, rfl⟩, rfl⟩ | ⟨ht, rfl⟩⟩
    · refine .inl ⟨⟨BitVec.ofNat 24 u, c⟩, mem_edgeSetEdges.mpr ⟨u, hu, rfl⟩, rfl, ?_, ?_⟩
      · rw [BitVec.toNat_ofNat]
      · exact mem_language_literal.mpr rfl
    · refine .inr ⟨t, ht, rfl, rfl, ?_⟩
      exact nil_mem_one

theorem buildRestates_ok (n : ℕ) : (buildRestates (n + 1)).Ok n := by
  have hself : ∀ s, (buildRestates (n + 1)).selfExpr s = none := by
    intro s
    rw [selfExpr, buildRestates, getElem?_replicate]
    split <;> rfl
  refine ⟨length_replicate, hself n, ?_, .nil, ?_, fun s e he => ?_, ?_⟩
  · exact fun e he => absurd he not_mem_nil
  · exact fun e he => absurd he not_mem_nil
  · rw [hself] at he
    exact absurd he (Option.not_mem_none e)
  · exact fun e he => absurd he not_mem_nil

theorem notMem_graph_buildRestates : w ∉ (buildRestates n).graph p s := by
  rw [mem_graph, selfExpr, buildRestates, getElem?_replicate]
  rintro (⟨-, hw⟩ | ⟨e, he, -⟩)
  · split at hw <;> exact notMem_zero w hw
  · cases he

/-- The copied edges are those of the FSM, and an edge from each end state to the artificial one. -/
theorem fsmRestates_spec (f : Fsm) : (fsmRestates f).Ok f.statecount ∧
    ∀ p s w, w ∈ (fsmRestates f).graph p s ↔ f.Copied p s w := by
  obtain ⟨hwok, hwadds⟩ := foldl_adds (n := f.statecount) (fun r => r) (walkEdges f) _
    (range f.statecount) (fun s hs r hr => walkEdges_spec hr (mem_range.mp hs))
    (buildRestates (f.statecount + 1)) (buildRestates_ok f.statecount)
  -- the second loop joins every end state to the artificial one
  obtain ⟨hok, hadds⟩ := foldl_adds (n := f.statecount) (fun r => r)
    (fun r s => if fsmIsend f s then buildEdgeEpsilon r s f.statecount else r)
    (fun s p t w => f.IsEnd s ∧ On s f.statecount (AstExpr.empty {}).language p t w)
    (range f.statecount) (fun s hs r hr => by
      split
      · rename_i hend
        obtain ⟨hok, hadds⟩ := buildEdgeExpr_spec f.statecount hr (mem_range.mp hs)
          proper_empty
        refine ⟨hok, fun p t w => (hadds p t w).trans (or_congr_right ?_)⟩
        exact (and_iff_right hend).symm
      · rename_i hend
        refine ⟨hr, fun p t w => (or_iff_left ?_).symm⟩
        exact fun h => hend h.1) _ hwok
  refine ⟨hok, fun p s w => ?_⟩
  rw [fsmRestates, hadds p s w, hwadds p s w, Fsm.Copied, ← or_assoc]
  refine or_congr ?_ ?_
  · rw [or_iff_right notMem_graph_buildRestates]
    constructor
    · rintro ⟨t, -, rfl, h⟩
      exact h
    · intro h
      refine ⟨p, mem_range.mpr ?_, rfl, h⟩
      rcases h with ⟨c, ⟨u, hu, -⟩, -⟩ | ⟨hs, -⟩
      · exact hu.source_lt
      · exact Fsm.Eps.source_lt hs
  · constructor
    · rintro ⟨t, -, hend, rfl, rfl, hw⟩
      exact ⟨hend, rfl, hw⟩
    · rintro ⟨hend, rfl, rfl⟩
      refine ⟨p, mem_range.mpr hend.lt, hend, rfl, rfl, ?_⟩
      exact nil_mem_one

/-- The strings from the start state to the artificial end state are those that are accepted. -/
theorem wordWalk_fsmRestates_iff (hf : f.Wf) {start : ℕ} (hstart : f.start = some start) :
    WordWalk (fsmRestates f).graph start w f.statecount ↔
      w ∈ f.narrowNfa.accepts := by
  have hgraph := (fsmRestates_spec f).2
  have hlt := hf.start_lt hstart
  rw [mem_accepts_iff_active]
  constructor
  · intro h
    -- a walk is at an active state until it goes to the artificial end state, which it cannot leave
    have hrun : ∀ {u t}, WordWalk (fsmRestates f).graph start u t →
        (t ≠ f.statecount → Lib.Active f.narrowNfa f.narrowNfa.start u t) ∧
          (t = f.statecount → ∃ s, f.IsEnd s ∧ Lib.Active f.narrowNfa f.narrowNfa.start u s) := by
      intro u t hu
      induction hu with
      | nil => exact ⟨fun _ => .base hstart, fun heq => absurd heq hlt.ne⟩
      | @snoc u v t r hwalk hedge ih =>
        rcases (hgraph t r v).mp hedge with ⟨c, hstep, rfl⟩ | ⟨hstep, rfl⟩ | ⟨hend, rfl, rfl⟩
        · obtain ⟨x, hx, rfl⟩ := hstep
          have hr : x % 2 ^ 24 < f.statecount := (Nat.mod_le x _).trans_lt (hf.edge_lt hx)
          exact ⟨fun _ => .symbol (ih.1 hx.source_lt.ne) ⟨x, hx, rfl⟩, fun heq => absurd heq hr.ne⟩
        · rw [append_nil]
          have ht : t < f.statecount := Fsm.Eps.source_lt hstep
          have hr : r < f.statecount := hf.eps_lt hstep
          exact ⟨fun _ => .eps (ih.1 ht.ne) hstep, fun heq => absurd heq hr.ne⟩
        · rw [append_nil]
          exact ⟨fun hne => absurd rfl hne, fun _ => ⟨t, hend, ih.1 hend.lt.ne⟩⟩
    obtain ⟨s, hend, hactive⟩ := (hrun h).2 rfl
    exact ⟨s, hend, hactive⟩
  · rintro ⟨s, hend, hactive⟩
    have hwalk : ∀ {u t}, Lib.Active f.narrowNfa f.narrowNfa.start u t →
        WordWalk (fsmRestates f).graph start u t := by
      intro u t hu
      induction hu with
      | @base t ht =>
        have heq : start = t := Option.some.inj (hstart.symm.trans ht)
        exact heq ▸ .nil
      | @eps u t r _ hstep ih =>
        have hnil := WordWalk.snoc ih ((hgraph t r []).mpr (.inr (.inl ⟨hstep, rfl⟩)))
        rwa [append_nil] at hnil
      | @symbol u c t r _ hstep ih =>
        exact .snoc ih ((hgraph t r [c]).mpr (.inl ⟨c, hstep, rfl⟩))
    have hnil := (hwalk hactive).snoc
      ((hgraph s f.statecount []).mpr (.inr (.inr ⟨hend, rfl, rfl⟩)))
    rwa [append_nil] at hnil

/-! ## §6 The Conversion -/

/-- Removing states one by one keeps the strings between two states that stay, and leaves no edge
at the others. -/
theorem foldl_removeState {start stop : ℕ} (l : List ℕ) (hl : stop ∉ l) {r' : Restates}
    (hr : r.Ok n) (h : l.foldl (fun r s => if s = start then r else removeState r s) r = r') :
    r'.Ok n ∧ (∀ w, WordWalk r'.graph start w stop ↔ WordWalk r.graph start w stop) ∧
      (∀ q, Isolated r.graph q → Isolated r'.graph q) ∧
      ∀ q ∈ l, q ≠ start → Isolated r'.graph q := by
  induction l generalizing r with
  | nil =>
    subst h
    exact ⟨hr, fun _ => Iff.rfl, fun _ => id, fun q hq => absurd hq not_mem_nil⟩
  | cons s l ih =>
    rw [mem_cons, not_or] at hl
    rw [foldl_cons] at h
    by_cases hs : s = start
    · rw [if_pos hs] at h
      obtain ⟨hok, hwalk, hkeep, hgone⟩ := ih hl.2 hr h
      refine ⟨hok, hwalk, hkeep, fun q hq hne => ?_⟩
      rcases mem_cons.mp hq with rfl | hq
      · exact absurd hs hne
      · exact hgone q hq hne
    · rw [if_neg hs] at h
      obtain ⟨hok₁, hgraph⟩ := removeState_spec s hr
      obtain ⟨hok, hwalk, hkeep, hgone⟩ := ih hl.2 hok₁ h
      rw [hgraph] at hwalk hkeep
      refine ⟨hok, fun w => ?_, fun q hq => hkeep q (hq.eliminate s), fun q hq hne => ?_⟩
      · exact (hwalk w).trans (walk_eliminate_iff (Ne.symm hs) hl.1)
      · rcases mem_cons.mp hq with rfl | hq
        · exact hkeep q (isolated_eliminate q)
        · exact hgone q hq hne

theorem isolated_fsmRestates (hf : f.Wf) {q : ℕ} (hq : f.statecount < q) :
    Isolated (fsmRestates f).graph q := by
  have hcopied : ∀ p s w, f.Copied p s w → p < f.statecount ∧ s ≤ f.statecount := by
    rintro p s w (⟨c, ⟨u, hu, rfl⟩, -⟩ | ⟨hstep, -⟩ | ⟨hend, rfl, -⟩)
    · exact ⟨hu.source_lt, (Nat.mod_le u _).trans (hf.edge_lt hu).le⟩
    · exact ⟨Fsm.Eps.source_lt hstep, (hf.eps_lt hstep).le⟩
    · exact ⟨hend.lt, le_rfl⟩
  refine fun p w => ⟨fun hw => ?_, fun hw => ?_⟩
  · have hlt := (hcopied q p w (((fsmRestates_spec f).2 q p w).mp hw)).1
    omega
  · have hle := (hcopied p q w (((fsmRestates_spec f).2 p q w).mp hw)).2
    omega

/-- There is one edge at most between two states. -/
theorem eq_of_edgeLt (h : l.Pairwise EdgeLt) {a b : ReEdge} (ha : a ∈ l) (hb : b ∈ l)
    (hsrc : a.src = b.src) (hdst : a.dst = b.dst) : a = b := by
  have hnodup : (l.map fun a => (a.src, a.dst)).Nodup := pairwise_map.mpr (h.imp fun hab => by
    simp only [EdgeLt, ne_eq, Prod.mk.injEq] at hab ⊢
    omega)
  exact inj_on_of_nodup_map hnodup ha hb (by rw [hsrc, hdst])

theorem built_tombstone : (AstExpr.tombstone {}).Built := by
  intro d hd
  rw [nodes, List.mem_singleton] at hd
  · rw [hd]
    trivial
  all_goals simp

/-- Nothing is accepted without a start state. -/
theorem narrowNfa_accepts_of_start (hstart : f.start = none) : f.narrowNfa.accepts = 0 := by
  ext w
  rw [mem_accepts_iff_active]
  refine iff_of_false ?_ (notMem_zero w)
  rintro ⟨s, -, hs⟩
  have hempty : f.narrowNfa.start = ∅ := by
    ext t
    exact iff_of_false (fun ht => Option.some_ne_none t (ht.symm.trans hstart)) (Set.notMem_empty t)
  rw [hempty] at hs
  induction hs with
  | base hs => exact hs
  | eps _ _ ih => exact ih
  | symbol _ _ ih => exact ih

/-- The start state and the artificial end state are left. -/
structure Reduced (r : Restates) (start stop : ℕ) : Prop where
  ok : r.Ok stop
  ne : start ≠ stop
  left : ∀ p s w, w ∈ r.graph p s → p = start ∧ (s = start ∨ s = stop)

/-- The loop over the states leaves these two, and the strings between them. -/
theorem foldl_removeState_reduced (hf : f.Wf) {start : ℕ} (hstart : f.start = some start)
    (hr : (range f.statecount).foldl (fun r s => if s = start then r else removeState r s)
      (fsmRestates f) = r) :
    Reduced r start f.statecount ∧ f.narrowNfa.accepts =
      KStar.kstar (r.graph start start) * r.graph start f.statecount := by
  have hlt : start < f.statecount := hf.start_lt hstart
  have hstop : f.statecount ∉ range f.statecount := by simp
  obtain ⟨hok, hwalk, hkeep, hgone⟩ :=
    foldl_removeState (range f.statecount) hstop (fsmRestates_spec f).1 hr
  have hfar : ∀ q, f.statecount < q → Isolated r.graph q :=
    fun q hq => hkeep q (isolated_fsmRestates hf hq)
  have hstay : ∀ {q}, q < f.statecount → ¬ Isolated r.graph q → q = start := by
    intro q hq hnot
    by_contra hne
    exact hnot (hgone q (mem_range.mpr hq) hne)
  -- nothing leaves the artificial end, and all other states are gone
  have hleft : ∀ p s w, w ∈ r.graph p s → p = start ∧ (s = start ∨ s = f.statecount) := by
    intro p s w hw
    have hp : p < f.statecount := by
      rcases mem_graph.mp hw with ⟨rfl, hself⟩ | ⟨e, he, rfl, -⟩
      · by_contra hge
        rcases Nat.eq_or_lt_of_not_lt hge with rfl | hgt
        · rw [hok.self_end] at hself
          exact notMem_zero w hself
        · exact (hfar p hgt p w).1 hw
      · exact hok.src_lt e he
    refine ⟨hstay hp fun h => (h s w).1 hw, ?_⟩
    rcases lt_trichotomy s f.statecount with hs | hs | hs
    · exact .inl (hstay hs fun h => (h p w).2 hw)
    · exact .inr hs
    · exact absurd hw (hfar s hs p w).2
  refine ⟨⟨hok, hlt.ne, hleft⟩, ?_⟩
  ext w
  rw [← wordWalk_fsmRestates_iff hf hstart, ← hwalk]
  exact walk_pair_iff hlt.ne hleft

namespace Reduced

variable {start stop : ℕ} {e : ReEdge} (h : Reduced r start stop)
include h

theorem mem_succs (he : e ∈ r.succs start) : e ∈ r.edges ∧ e.src = start ∧ e.dst = stop := by
  obtain ⟨he, hsrc⟩ := mem_filter.mp he
  have hsrc := of_decide_eq_true hsrc
  obtain ⟨w, hw⟩ := (h.ok.proper_edges e he).nonempty
  have hedge : w ∈ r.graph start e.dst := mem_graph.mpr (.inr ⟨e, he, hsrc, rfl, hw⟩)
  refine ⟨he, hsrc, (h.left _ _ _ hedge).2.resolve_left fun hloop => ?_⟩
  exact h.ok.loopless e he (hsrc.trans hloop.symm)

theorem graph_of_nil (hnil : r.succs start = []) : r.graph start stop = 0 := by
  ext w
  refine iff_of_false (fun hw => ?_) (notMem_zero w)
  obtain ⟨e, he, hsrc, -⟩ := (mem_graph_of_ne h.ne).mp hw
  have hmem : e ∈ r.succs start := mem_filter.mpr ⟨he, decide_eq_true hsrc⟩
  rw [hnil] at hmem
  exact not_mem_nil hmem

theorem graph_of_mem (he : e ∈ r.succs start) : r.graph start stop = e.expr.language := by
  obtain ⟨he, hsrc, hdst⟩ := h.mem_succs he
  ext w
  rw [mem_graph_of_ne h.ne]
  refine ⟨?_, fun hw => ⟨e, he, hsrc, hdst, hw⟩⟩
  rintro ⟨d, hd, hdsrc, hddst, hw⟩
  rwa [eq_of_edgeLt h.ok.sorted he hd (hsrc.trans hdsrc.symm) (hdst.trans hddst.symm)]

end Reduced

/-- The expression before it is rewritten, for FSMs of any size. -/
theorem astExprNewFromFsm_spec (hf : f.Wf) :
    (astExprNewFromFsm f).Built ∧ (astExprNewFromFsm f).language = f.narrowNfa.accepts := by
  rw [astExprNewFromFsm]
  split
  · rename_i hstart
    exact ⟨built_tombstone, (narrowNfa_accepts_of_start hstart).symm⟩
  · rename_i start hstart
    generalize hr : (range f.statecount).foldl
      (fun r s => if s = start then r else removeState r s) (fsmRestates f) = r
    obtain ⟨hred, hlanguage⟩ := foldl_removeState_reduced hf hstart hr
    rw [hlanguage, graph_self hred.ok]
    dsimp only
    cases hhead : (r.succs start).head? with
    | none =>
      rw [hred.graph_of_nil (head?_eq_none_iff.mp hhead)]
      exact ⟨built_tombstone, by rw [language_tombstone, mul_zero]⟩
    | some e =>
      have hmem := mem_of_mem_head? hhead
      obtain ⟨he, -, hdst⟩ := hred.mem_succs hmem
      have hproper := hred.ok.proper_edges e he
      dsimp only
      rw [if_neg (not_not.mpr hdst), hred.graph_of_mem hmem]
      -- a loop at the start state comes first, any number of times
      cases hself : r.selfExpr start with
      | none => exact ⟨hproper.built, by simp⟩
      | some b =>
        have hb := hred.ok.proper_self start b hself
        refine ⟨built_concat fun d hd => ?_, by simp [repeats_zero_top]⟩
        rcases mem_cons.mp hd with rfl | hd
        · exact built_star hb.built
        · rw [List.mem_singleton.mp hd]
          exact hproper.built

/-- The expression stands for the strings that are accepted when destinations are cut to 24 bits. -/
theorem astNewFromFsm_narrow (compileSubexpr : CompileSubexpr) (hf : f.Wf) :
    ∃ e, astNewFromFsm compileSubexpr f = some e ∧ e.language = f.narrowNfa.accepts := by
  obtain ⟨hbuilt, hlanguage⟩ := astExprNewFromFsm_spec hf
  obtain ⟨e, he, hrew⟩ := rewrite_spec compileSubexpr hbuilt.rewritable
  exact ⟨e, he, hrew.language_eq.trans hlanguage⟩

theorem Fsm.narrowNfa_eq (hf : f.Wf) (hsmall : f.statecount ≤ 2 ^ 24) : f.narrowNfa = f.toNfa := by
  have hstep : f.narrowNfa.step = f.toNfa.step := by
    funext s o
    cases o with
    | none => rfl
    | some c =>
      ext t
      constructor
      · rintro ⟨u, hu, rfl⟩
        rw [Nat.mod_eq_of_lt ((hf.edge_lt hu).trans_le hsmall)]
        exact hu
      · intro ht
        exact ⟨t, ht, (Nat.mod_eq_of_lt ((hf.edge_lt ht).trans_le hsmall)).symm⟩
  rw [narrowNfa, toNfa] at *
  simp only at hstep
  rw [hstep]

/-- The expression made from an FSM of at most `2 ^ 24` states stands for the strings it accepts. -/
theorem astNewFromFsm_language (compileSubexpr : CompileSubexpr) {f : Fsm} (hf : f.Wf)
    (hsmall : f.statecount ≤ 2 ^ 24) :
    ∃ e, astNewFromFsm compileSubexpr f = some e ∧ e.language = f.language := by
  obtain ⟨e, he, hlanguage⟩ := astNewFromFsm_narrow compileSubexpr hf
  rw [Fsm.narrowNfa_eq hf hsmall] at hlanguage
  exact ⟨e, he, hlanguage⟩

theorem astNewFromFsm_language_farEdge :
    ∃ e, astNewFromFsm (fun _ => none) (farEdgeFsm 0) = some e ∧
    [97] ∈ e.language := by
  obtain ⟨e, he, hlanguage⟩ := astNewFromFsm_language (fun _ => none) (farEdgeFsm_wf 0)
    (by rw [farEdgeFsm_statecount]; norm_num)
  exact ⟨e, he, hlanguage ▸ farEdgeFsm_accepts 0⟩

private theorem eq_zero_of_active (hn : (n + 1) % 2 ^ 24 = 0) {t : ℕ}
    (ht : Lib.Active (farEdgeFsm n).narrowNfa (farEdgeFsm n).narrowNfa.start w t) : t = 0 := by
  induction ht with
  | base ht => exact (Option.some.inj ht).symm
  | eps _ ht _ => exact absurd ht farEdgeFsm_eps
  | symbol _ ht _ =>
    obtain ⟨u, hu, rfl⟩ := ht
    rw [(farEdgeFsm_edge.mp hu).2.2, hn]

/-- State number `2 ^ 24` is read as 0, so the edge to it becomes a loop at the start state, and the
expression never matches. -/
theorem astNewFromFsm_loses_word : ∃ e,
    astNewFromFsm (fun _ => none) (farEdgeFsm (2 ^ 24 - 1)) = some e ∧
      [97] ∈ (farEdgeFsm (2 ^ 24 - 1)).language ∧ [97] ∉ e.language := by
  obtain ⟨e, he, hlanguage⟩ := astNewFromFsm_narrow (fun _ => none) (farEdgeFsm_wf (2 ^ 24 - 1))
  refine ⟨e, he, farEdgeFsm_accepts _, ?_⟩
  rw [hlanguage, mem_accepts_iff_active]
  rintro ⟨s, hend, hactive⟩
  have hend' := farEdgeFsm_isEnd.mp hend
  rw [eq_zero_of_active (by norm_num) hactive] at hend'
  norm_num at hend'

end Libfsm
