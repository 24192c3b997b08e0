import Libfsm.Adt.EdgeSet
import Libfsm.Lib.Repeats

/-!
# The Syntax Tree Of A Regular Expression

The tree of `libre/ast.h` with the order of `ast_expr_cmp`, and the language of a tree without
anchors.

- `ReFlags`, `AstFlags`: the flags of a node, from the parser and from the analysis
- `AstExpr`: the tree
- `astExprCmp`: the order by which alternatives are sorted
- `AstExpr.language`: the strings a tree without anchors stands for
-/

namespace Libfsm

open Lib
open List hiding nil cons

/-! ## §1 Flags -/

/-- `enum re_flags` -/
structure ReFlags where
  icase : Bool := false
  text : Bool := false
  multi : Bool := false
  reverse : Bool := false
  single : Bool := false
  zone : Bool := false
  anchored : Bool := false
  extended : Bool := false
  endNl : Bool := false
  saveLinkageInfo : Bool := false
deriving DecidableEq, Repr, Inhabited

/-- The value of a set of bits, the lowest first. -/
def bitsToNat : List Bool → ℕ
  | [] => 0
  | b :: l => b.toNat + 2 * bitsToNat l

theorem bitsToNat_injective {l m : List Bool} (hlen : l.length = m.length)
    (h : bitsToNat l = bitsToNat m) : l = m := by
  induction l generalizing m with
  | nil => exact (length_eq_zero_iff.mp hlen.symm).symm
  | cons b l ih =>
    cases m with
    | nil => cases hlen
    | cons c m =>
      simp only [bitsToNat] at h
      have hbit : b = c := by
        cases b <;> cases c <;> simp at h ⊢ <;> omega
      subst hbit
      rw [ih (Nat.succ.inj hlen) (by omega)]

/-- The bits of the enumeration, the lowest first. -/
def ReFlags.toBits (f : ReFlags) : List Bool :=
  [f.icase, f.text, f.multi, f.reverse, f.single, f.zone, f.anchored, f.extended, f.endNl,
    f.saveLinkageInfo]

/-- The number behind the enumeration. -/
def ReFlags.toNat (f : ReFlags) : ℕ := bitsToNat f.toBits

theorem ReFlags.toNat_injective : Function.Injective ReFlags.toNat := by
  intro f g h
  have hbits : f.toBits = g.toBits := bitsToNat_injective rfl h
  rw [ReFlags.toBits, ReFlags.toBits] at hbits
  cases f
  cases g
  simpa using hbits

/-- `enum ast_flags`: what the analysis finds out about a node. -/
structure AstFlags where
  first : Bool := false
  last : Bool := false
  unsatisfiable : Bool := false
  nullable : Bool := false
  alwaysConsumes : Bool := false
  canConsume : Bool := false
  anchoredStart : Bool := false
  anchoredEnd : Bool := false
  endNl : Bool := false
  matches1Newline : Bool := false
  constrainedAtStart : Bool := false
  constrainedAtEnd : Bool := false
deriving DecidableEq, Repr, Inhabited

/-- The number behind the enumeration. -/
def AstFlags.toNat (f : AstFlags) : ℕ :=
  bitsToNat [f.first, f.last, f.unsatisfiable, f.nullable, f.alwaysConsumes, f.canConsume,
    f.anchoredStart, f.anchoredEnd, f.endNl, f.matches1Newline, f.constrainedAtStart,
    f.constrainedAtEnd]

theorem AstFlags.toNat_injective : Function.Injective AstFlags.toNat := by
  intro f g h
  have hbits := bitsToNat_injective (by simp) h
  cases f
  cases g
  simpa using hbits

/-- The part of a node that is there for every type. -/
@[ext]
structure AstInfo where
  flags : AstFlags := {}
  reFlags : ReFlags := {}
deriving DecidableEq, Repr, Inhabited

/-! ## §2 Trees -/

/-- `enum ast_anchor_type` -/
inductive AstAnchorType where
  | start
  | fin
deriving DecidableEq, Repr, Inhabited

/-- `AST_COUNT_UNBOUNDED`, that is `(unsigned) -1` -/
def astCountUnbounded : ℕ := 2 ^ 32 - 1

/-- `struct ast_expr`.  The endpoints of a range are literals, as the parsers accept no other. -/
inductive AstExpr where
  | empty (info : AstInfo)
  | concat (info : AstInfo) (n : List AstExpr)
  | alt (info : AstInfo) (n : List AstExpr)
  | literal (info : AstInfo) (c : Byte)
  | codepoint (info : AstInfo) (u : BitVec 32)
  | repeated (info : AstInfo) (e : AstExpr) (min max : ℕ)
  | group (info : AstInfo) (e : AstExpr) (id : ℕ)
  | anchor (info : AstInfo) (type : AstAnchorType) (isEndNl : Bool)
  | subtract (info : AstInfo) (a b : AstExpr)
  | range (info : AstInfo) (lower upper : Byte)
  | tombstone (info : AstInfo)
deriving Repr, Inhabited

namespace AstExpr

/-- Induction over trees, with the children of a node as the members of its list. -/
@[induction_eliminator, elab_as_elim]
theorem inductionOn {motive : AstExpr → Prop} (e : AstExpr)
    (empty : ∀ info, motive (.empty info))
    (concat : ∀ info n, (∀ e ∈ n, motive e) → motive (.concat info n))
    (alt : ∀ info n, (∀ e ∈ n, motive e) → motive (.alt info n))
    (literal : ∀ info c, motive (.literal info c))
    (codepoint : ∀ info u, motive (.codepoint info u))
    (repeated : ∀ info e min max, motive e → motive (.repeated info e min max))
    (group : ∀ info e id, motive e → motive (.group info e id))
    (anchor : ∀ info type isEndNl, motive (.anchor info type isEndNl))
    (subtract : ∀ info a b, motive a → motive b → motive (.subtract info a b))
    (range : ∀ info lower upper, motive (.range info lower upper))
    (tombstone : ∀ info, motive (.tombstone info)) : motive e := by
  -- the second motive is about the children of a node
  refine @AstExpr.rec motive (fun l => ∀ e ∈ l, motive e)
    empty concat alt literal codepoint repeated group anchor subtract range tombstone ?_ ?_ e
  · exact fun _ h => absurd h not_mem_nil
  · intro e l he hl d hd
    rcases mem_cons.mp hd with rfl | hd
    · exact he
    · exact hl d hd

/-- What is common to all nodes. -/
def info : AstExpr → AstInfo
  | .empty i | .concat i _ | .alt i _ | .literal i _ | .codepoint i _ | .repeated i _ _ _
  | .group i _ _ | .anchor i _ _ | .subtract i _ _ | .range i _ _ | .tombstone i => i

/-- `enum ast_expr_type` -/
def type : AstExpr → ℕ
  | .empty _ => 1
  | .concat _ _ => 2
  | .alt _ _ => 3
  | .literal _ _ => 4
  | .codepoint _ _ => 5
  | .repeated _ _ _ _ => 6
  | .group _ _ _ => 7
  | .anchor _ _ _ => 8
  | .subtract _ _ _ => 9
  | .range _ _ _ => 10
  | .tombstone _ => 11

mutual

/-- The nodes of a tree. -/
def nodes : AstExpr → List AstExpr
  | .concat i n => .concat i n :: nodesOf n
  | .alt i n => .alt i n :: nodesOf n
  | .repeated i e min max => .repeated i e min max :: nodes e
  | .group i e id => .group i e id :: nodes e
  | .subtract i a b => .subtract i a b :: (nodes a ++ nodes b)
  | e => [e]

/-- The nodes of the trees of a list. -/
def nodesOf : List AstExpr → List AstExpr
  | [] => []
  | e :: n => nodes e ++ nodesOf n

end

theorem mem_nodesOf {n : List AstExpr} {d : AstExpr} : d ∈ nodesOf n ↔ ∃ e ∈ n, d ∈ e.nodes := by
  induction n with
  | nil => simp [nodesOf]
  | cons e n ih => simp [nodesOf, ih]

theorem mem_nodes_self (e : AstExpr) : e ∈ e.nodes := by
  cases e <;> simp [nodes]

theorem mem_nodes_concat {i : AstInfo} {n : List AstExpr} {d : AstExpr} :
    d ∈ (concat i n).nodes ↔ d = concat i n ∨ ∃ e ∈ n, d ∈ e.nodes := by
  rw [nodes, mem_cons, mem_nodesOf]

theorem mem_nodes_alt {i : AstInfo} {n : List AstExpr} {d : AstExpr} :
    d ∈ (alt i n).nodes ↔ d = alt i n ∨ ∃ e ∈ n, d ∈ e.nodes := by
  rw [nodes, mem_cons, mem_nodesOf]

theorem mem_nodes_repeated {i : AstInfo} {e d : AstExpr} {min max : ℕ} :
    d ∈ (repeated i e min max).nodes ↔ d = repeated i e min max ∨ d ∈ e.nodes := by
  rw [nodes, mem_cons]

theorem mem_nodes_group {i : AstInfo} {e d : AstExpr} {id : ℕ} :
    d ∈ (group i e id).nodes ↔ d = group i e id ∨ d ∈ e.nodes := by
  rw [nodes, mem_cons]

theorem mem_nodes_subtract {i : AstInfo} {a b d : AstExpr} :
    d ∈ (subtract i a b).nodes ↔ d = subtract i a b ∨ d ∈ a.nodes ∨ d ∈ b.nodes := by
  rw [nodes, mem_cons, mem_append]

/-- The nodes of a subtree are nodes of the tree. -/
theorem nodes_trans {e d c : AstExpr} (hd : d ∈ e.nodes) (hc : c ∈ d.nodes) : c ∈ e.nodes := by
  induction e with
  | concat i n ih =>
    rcases mem_nodes_concat.mp hd with rfl | ⟨e, he, hd⟩
    · exact hc
    · exact mem_nodes_concat.mpr (.inr ⟨e, he, ih e he hd⟩)
  | alt i n ih =>
    rcases mem_nodes_alt.mp hd with rfl | ⟨e, he, hd⟩
    · exact hc
    · exact mem_nodes_alt.mpr (.inr ⟨e, he, ih e he hd⟩)
  | repeated i e min max ih =>
    rcases mem_nodes_repeated.mp hd with rfl | hd
    · exact hc
    · exact mem_nodes_repeated.mpr (.inr (ih hd))
  | group i e id ih =>
    rcases mem_nodes_group.mp hd with rfl | hd
    · exact hc
    · exact mem_nodes_group.mpr (.inr (ih hd))
  | subtract i a b iha ihb =>
    rcases mem_nodes_subtract.mp hd with rfl | hd | hd
    · exact hc
    · exact mem_nodes_subtract.mpr (.inr (.inl (iha hd)))
    · exact mem_nodes_subtract.mpr (.inr (.inr (ihb hd)))
  | _ =>
    simp only [nodes, List.mem_singleton] at hd
    subst hd
    exact hc

def isEmpty : AstExpr → Bool
  | .empty _ => true
  | _ => false

def isTombstone : AstExpr → Bool
  | .tombstone _ => true
  | _ => false

def isConcat : AstExpr → Bool
  | .concat _ _ => true
  | _ => false

def isAlt : AstExpr → Bool
  | .alt _ _ => true
  | _ => false

def isAnchor : AstExpr → Bool
  | .anchor _ _ _ => true
  | _ => false

def isSubtract : AstExpr → Bool
  | .subtract _ _ _ => true
  | _ => false

end AstExpr

/-! ## §3 Comparison -/

/-- The comparisons that `ast_expr_cmp` makes for every type. -/
def astHeaderCmp (a b : AstExpr) : Ordering :=
  (compare a.type b.type).then
    ((compare a.info.flags.toNat b.info.flags.toNat).then
      (compare a.info.reFlags.toNat b.info.reFlags.toNat))

/-- The order of an anchor's type in its enumeration. -/
def AstAnchorType.toNat : AstAnchorType → ℕ
  | .start => 0
  | .fin => 1

mutual

/-- The comparison of what nodes of one type hold. -/
def astBodyCmp : AstExpr → AstExpr → Ordering
  | .concat _ n, .concat _ m => (compare n.length m.length).then (astExprsCmp n m)
  | .alt _ n, .alt _ m => (compare n.length m.length).then (astExprsCmp n m)
  | .literal _ c, .literal _ d => compare c.val d.val
  | .codepoint _ u, .codepoint _ v => compare u.toNat v.toNat
  | .repeated _ e min max, .repeated _ e' min' max' =>
    (compare min min').then ((compare max max').then
      ((astHeaderCmp e e').then (astBodyCmp e e')))
  | .group _ e id, .group _ e' id' =>
    (compare id id').then ((astHeaderCmp e e').then (astBodyCmp e e'))
  -- `is_end_nl` is not compared
  | .anchor _ t _, .anchor _ t' _ => compare t.toNat t'.toNat
  | .subtract _ a₁ a₂, .subtract _ b₁ b₂ =>
    ((astHeaderCmp a₁ b₁).then (astBodyCmp a₁ b₁)).then
      ((astHeaderCmp a₂ b₂).then (astBodyCmp a₂ b₂))
  | .range _ lo hi, .range _ lo' hi' => (compare lo.val lo'.val).then (compare hi.val hi'.val)
  | _, _ => .eq

/-- The loop over the children of two nodes. -/
def astExprsCmp : List AstExpr → List AstExpr → Ordering
  | a :: n, b :: m => ((astHeaderCmp a b).then (astBodyCmp a b)).then (astExprsCmp n m)
  | _, _ => .eq

end

def astExprCmp (a b : AstExpr) : Ordering := (astHeaderCmp a b).then (astBodyCmp a b)

theorem astExprCmp_eq_iff {a b : AstExpr} :
    astExprCmp a b = .eq ↔ (a.type = b.type ∧ a.info = b.info) ∧ astBodyCmp a b = .eq := by
  have hinfo : a.info = b.info ↔
      a.info.flags = b.info.flags ∧ a.info.reFlags = b.info.reFlags := AstInfo.ext_iff
  rw [astExprCmp, astHeaderCmp, Ordering.then_eq_eq, Ordering.then_eq_eq, Ordering.then_eq_eq,
    compare_eq_iff_eq, compare_eq_iff_eq, compare_eq_iff_eq, ReFlags.toNat_injective.eq_iff,
    AstFlags.toNat_injective.eq_iff, hinfo]

/-! ## §4 Languages -/

/-- `tolower` in the C locale -/
def toLower (c : Byte) : Byte := if 65 ≤ c.val ∧ c.val ≤ 90 then c + 32 else c

/-- `toupper` in the C locale -/
def toUpper (c : Byte) : Byte := if 97 ≤ c.val ∧ c.val ≤ 122 then c - 32 else c

/-- The labels that `addedge_literal` adds for a character. -/
def literalBytes (f : ReFlags) (c : Byte) : List Byte :=
  if f.icase then [toLower c, toUpper c] else [c]

/-- `utf8` of ast_compile.c: the bytes of a code point, none if it has no encoding. -/
def utf8 (u : BitVec 32) : Option (List Byte) :=
  let cp := u.toNat
  let byte (n : ℕ) : Byte := Fin.ofNat 256 n
  if cp ≤ 0x7f then some [byte cp]
  else if cp ≤ 0x7ff then some [byte (cp / 64 + 192), byte (cp % 64 + 128)]
  else if 0xd800 ≤ cp ∧ cp ≤ 0xdfff then none
  else if cp ≤ 0xffff then
    some [byte (cp / 4096 + 224), byte (cp / 64 % 64 + 128), byte (cp % 64 + 128)]
  else if cp ≤ 0x10ffff then
    some [byte (cp / 262144 + 240), byte (cp / 4096 % 64 + 128), byte (cp / 64 % 64 + 128),
      byte (cp % 64 + 128)]
  else none

/-- The strings of one byte that a character stands for. -/
def literalLanguage (f : ReFlags) (c : Byte) : Language Byte :=
  {w | ∃ d ∈ literalBytes f c, w = [d]}

/-- The upper bound of a repetition, which `AST_COUNT_UNBOUNDED` takes away. -/
def upperBound (max : ℕ) : ℕ∞ := if max = astCountUnbounded then ⊤ else max

namespace AstExpr

mutual

/-- The strings that a tree without anchors stands for. -/
def language : AstExpr → Language Byte
  | .empty _ => 1
  | .concat _ n => concatLanguage n
  | .alt _ n => altLanguage n
  | .literal i c => literalLanguage i.reFlags c
  | .codepoint i u =>
    match utf8 u with
    | some cs => (cs.map (literalLanguage i.reFlags)).prod
    | none => 0
  | .repeated _ e min max => repeats e.language min (upperBound max)
  | .group _ e _ => e.language
  | .anchor _ _ _ => 1
  | .subtract _ a b => a.language - b.language
  | .range i lower upper => {w | ∃ c, lower ≤ c ∧ c ≤ upper ∧ w ∈ literalLanguage i.reFlags c}
  | .tombstone _ => 0

/-- The strings of a sequence of trees. -/
def concatLanguage : List AstExpr → Language Byte
  | [] => 1
  | e :: n => e.language * concatLanguage n

/-- The strings of a set of alternatives. -/
def altLanguage : List AstExpr → Language Byte
  | [] => 0
  | e :: n => e.language + altLanguage n

end

@[simp] theorem language_empty (i : AstInfo) : (empty i).language = 1 := by
  rw [language]

@[simp] theorem language_tombstone (i : AstInfo) : (tombstone i).language = 0 := by
  rw [language]

@[simp] theorem language_group (i : AstInfo) (e : AstExpr) (id : ℕ) :
    (group i e id).language = e.language := by
  rw [language]

@[simp] theorem language_repeated (i : AstInfo) (e : AstExpr) (min max : ℕ) :
    (repeated i e min max).language = repeats e.language min (upperBound max) := by
  rw [language]

@[simp] theorem concatLanguage_eq (n : List AstExpr) :
    concatLanguage n = (n.map language).prod := by
  induction n with
  | nil => rw [concatLanguage, map_nil, prod_nil]
  | cons e n ih => rw [concatLanguage, ih, map_cons, prod_cons]

@[simp] theorem language_concat (i : AstInfo) (n : List AstExpr) :
    (concat i n).language = (n.map language).prod := by
  rw [language, concatLanguage_eq]

theorem altLanguage_eq (n : List AstExpr) : altLanguage n = (n.map language).sum := by
  induction n with
  | nil => rw [altLanguage, map_nil, sum_nil]
  | cons e n ih => rw [altLanguage, ih, map_cons, sum_cons]

theorem language_alt (i : AstInfo) (n : List AstExpr) :
    (alt i n).language = (n.map language).sum := by
  rw [language, altLanguage_eq]

theorem mem_altLanguage {n : List AstExpr} {w : List Byte} :
    w ∈ altLanguage n ↔ ∃ e ∈ n, w ∈ e.language := by
  induction n with
  | nil => simp [altLanguage]
  | cons e n ih => simp [altLanguage, Language.mem_add, ih]

theorem mem_language_alt {i : AstInfo} {n : List AstExpr} {w : List Byte} :
    w ∈ (alt i n).language ↔ ∃ e ∈ n, w ∈ e.language := by
  rw [language, mem_altLanguage]

end AstExpr

/-! ## §5 Trees That Compare As Equal -/

namespace AstExpr

mutual

/-- A tree with the kind of all anchors set, which `ast_expr_cmp` does not look at. -/
def setNl (nl : Bool) : AstExpr → AstExpr
  | .concat i n => .concat i (setNls nl n)
  | .alt i n => .alt i (setNls nl n)
  | .repeated i e min max => .repeated i (setNl nl e) min max
  | .group i e id => .group i (setNl nl e) id
  | .anchor i t _ => .anchor i t nl
  | .subtract i a b => .subtract i (setNl nl a) (setNl nl b)
  | e => e

def setNls (nl : Bool) : List AstExpr → List AstExpr
  | [] => []
  | e :: n => setNl nl e :: setNls nl n

end

theorem setNls_eq (nl : Bool) (n : List AstExpr) : setNls nl n = n.map (setNl nl) := by
  induction n with
  | nil => rw [setNls, map_nil]
  | cons e n ih => rw [setNls, ih, map_cons]

theorem map_setNls {β : Type*} (g : AstExpr → β) {nl : Bool} {n : List AstExpr}
    (h : ∀ e ∈ n, g (e.setNl nl) = g e) : (setNls nl n).map g = n.map g := by
  rw [setNls_eq, map_map]
  exact map_congr_left h

theorem language_setNl (nl : Bool) (e : AstExpr) : (e.setNl nl).language = e.language := by
  induction e with
  | concat i n ih => rw [setNl, language_concat, language_concat, map_setNls _ ih]
  | alt i n ih => rw [setNl, language_alt, language_alt, map_setNls _ ih]
  | range i lo hi => simp only [setNl]
  | _ => simp_all [setNl, language]

end AstExpr

open AstExpr

private theorem setNls_of_astExprsCmp {nl : Bool} {n m : List AstExpr}
    (hn : ∀ e ∈ n, ∀ d, astExprCmp e d = .eq → e.setNl nl = d.setNl nl)
    (hlen : n.length = m.length) (hcmp : astExprsCmp n m = .eq) :
    setNls nl n = setNls nl m := by
  induction n generalizing m with
  | nil => rw [length_eq_zero_iff.mp hlen.symm]
  | cons e n ih =>
    cases m with
    | nil => cases hlen
    | cons d m =>
      rw [astExprsCmp, Ordering.then_eq_eq] at hcmp
      rw [setNls, setNls, hn e mem_cons_self d hcmp.1,
        ih (fun e' he' => hn e' (mem_cons_of_mem e he')) (Nat.succ.inj hlen) hcmp.2]

/-- Trees that compare as equal are the same but for the kind of their anchors. -/
theorem setNl_of_astExprCmp (nl : Bool) {a b : AstExpr} (h : astExprCmp a b = .eq) :
    a.setNl nl = b.setNl nl := by
  -- trees of different types do not compare as equal
  induction a generalizing b with
  | concat i n ih | alt i n ih =>
    cases b <;> simp [astExprCmp_eq_iff, type, info, astBodyCmp] at h
    obtain ⟨rfl, hlen, hcmp⟩ := h
    rw [setNl, setNl, setNls_of_astExprsCmp (fun e he d => ih e he) hlen hcmp]
  | repeated i e lo hi ih =>
    cases b <;> simp [astExprCmp_eq_iff, type, info, astBodyCmp] at h
    obtain ⟨rfl, rfl, rfl, hhead, hbody⟩ := h
    rw [setNl, setNl, ih (Ordering.then_eq_eq.mpr ⟨hhead, hbody⟩)]
  | group i e id ih =>
    cases b <;> simp [astExprCmp_eq_iff, type, info, astBodyCmp] at h
    obtain ⟨rfl, rfl, hhead, hbody⟩ := h
    rw [setNl, setNl, ih (Ordering.then_eq_eq.mpr ⟨hhead, hbody⟩)]
  | subtract i a₁ a₂ ih₁ ih₂ =>
    cases b <;> simp [astExprCmp_eq_iff, type, info, astBodyCmp] at h
    obtain ⟨rfl, ⟨hhead₁, hbody₁⟩, hhead₂, hbody₂⟩ := h
    rw [setNl, setNl, ih₁ (Ordering.then_eq_eq.mpr ⟨hhead₁, hbody₁⟩),
      ih₂ (Ordering.then_eq_eq.mpr ⟨hhead₂, hbody₂⟩)]
  | anchor i t nl' =>
    cases b <;> simp [astExprCmp_eq_iff, type, info, astBodyCmp] at h
    rename_i t' _
    cases t <;> cases t' <;> simp_all [AstAnchorType.toNat, setNl]
  | _ =>
    cases b <;> simp [astExprCmp_eq_iff, type, info, astBodyCmp] at h
    all_goals simp_all [Fin.val_inj, BitVec.toNat_inj]

/-- Trees that compare as equal stand for the same strings. -/
theorem astExprCmp_eq_language {a b : AstExpr} (h : astExprCmp a b = .eq) :
    a.language = b.language := by
  rw [← language_setNl false a, setNl_of_astExprCmp false h, language_setNl]

end Libfsm
