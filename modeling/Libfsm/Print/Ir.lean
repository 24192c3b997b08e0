import Libfsm.Fsm.Semantics
import Libfsm.Lib.Runs

/-!
# The Codegen IR

`make_ir` of `print/ir.c`, which writes each state of a DFA in one of six ways for the code
generators, and `fsm_findmode` of `mode.c`.

- `IrStrategy`, `IrState`, `Ir`: the records
- `fsmFindmode`, `makeGroups`, `makeHoles`, `makeState`, `makeIr`: the functions
- `IrStrategy.decode`: what a strategy stands for

An assertion that fails stops the program; the functions return `none` there.  The examples
that are written into comments are left out.
-/

namespace Libfsm

open Lib

/-! ## §1 Records -/

/-- `struct ir_range`, inclusive -/
abbrev IrRange := Span 256

/-- `struct ir_group` -/
structure IrGroup where
  toState : ℕ
  ranges : List IrRange
  deriving DecidableEq, Repr

/-- `enum ir_strategy` and the union that goes with it. -/
inductive IrStrategy where
  | irNone
  | irSame (toState : ℕ)
  | irComplete (groups : List IrGroup)
  | irPartial (groups : List IrGroup)
  | irDominant (mode : ℕ) (groups : List IrGroup)
  | irError (mode : ℕ) (error : List IrRange) (groups : List IrGroup)
  deriving DecidableEq, Repr, Inhabited

/-- `struct ir_state` -/
structure IrState where
  isend : Bool
  endids : List ℕ
  eagerOutputs : List ℕ
  strategy : IrStrategy
  deriving DecidableEq, Repr

/-- `struct ir` -/
structure Ir where
  start : ℕ
  states : List IrState
  deriving DecidableEq, Repr

/-- `c` is in one of the group's ranges. -/
def IrGroup.Has (g : IrGroup) (c : Byte) : Prop := ∃ r ∈ g.ranges, r.Has c

instance (g : IrGroup) (c : Byte) : Decidable (g.Has c) :=
  inferInstanceAs (Decidable (∃ r ∈ g.ranges, r.Has c))

/-- The destination of the first group with the symbol. -/
def findGroup (groups : List IrGroup) (c : Byte) : Option ℕ :=
  (groups.find? fun g => g.Has c).map IrGroup.toState

namespace IrStrategy

/-- The transition a strategy stands for. -/
def decode : IrStrategy → Byte → Option ℕ
  | irNone, _ => none
  | irSame t, _ => some t
  | irComplete groups, c => findGroup groups c
  | irPartial groups, c => findGroup groups c
  | irDominant mode groups, c => some ((findGroup groups c).getD mode)
  | irError mode error groups, c =>
    if ∃ r ∈ error, r.Has c then none else some ((findGroup groups c).getD mode)

/-- The groups of a strategy. -/
def groups : IrStrategy → List IrGroup
  | irNone => []
  | irSame _ => []
  | irComplete groups => groups
  | irPartial groups => groups
  | irDominant _ groups => groups
  | irError _ _ groups => groups

/-- The error ranges of a strategy. -/
def errorRanges : IrStrategy → List IrRange
  | irError _ error _ => error
  | _ => []

end IrStrategy

/-! ## §2 The Functions -/

/-- One group in the loop of `fsm_findmode`: the state and the frequency so far. -/
def findmodeStep (mode : Option ℕ × ℕ) (g : EdgeGroup) : Option ℕ × ℕ :=
  if mode.2 < g.labels.length then (some g.toState, g.labels.length) else mode

/-- `fsm_findmode`: the state with most labels, and their number.  The frequency starts at 1,
and if no state has more, no state is found and the assertion fails. -/
def fsmFindmode (edges : EdgeSet) : Option (ℕ × ℕ) :=
  let mode := (edgeSetGroups edges).foldl findmodeStep (none, 1)
  mode.1.map fun state => (state, mode.2)

/-- `range_cmp` -/
def rangeLe (a b : Run 256 ℕ) : Prop := a.label < b.label ∨ a.label = b.label ∧ a.start ≤ b.start

instance : DecidableRel rangeLe := fun a b =>
  inferInstanceAs (Decidable (a.label < b.label ∨ a.label = b.label ∧ a.start ≤ b.start))

/-- The last pass of `make_groups`: ranges in a row with the same destination make a group. -/
def groupRanges : List (Run 256 ℕ) → List IrGroup
  | [] => []
  | r :: rs =>
    match groupRanges rs with
    | [] => [⟨r.label, [r.toSpan]⟩]
    | g :: gs =>
      if g.toState = r.label then ⟨g.toState, r.toSpan :: g.ranges⟩ :: gs
      else ⟨r.label, [r.toSpan]⟩ :: g :: gs

/-- The edges `make_groups` looks at, as ranges of one symbol: all but those to the mode. -/
def keptRanges (edges : EdgeSet) (mode : Option ℕ) : List (Run 256 ℕ) :=
  ((edgeSetOrderedEdges edges).filter fun e => mode ≠ some e.state.toNat).map fun e =>
    ⟨⟨e.symbol, e.symbol⟩, e.state.toNat⟩

/-- `make_groups`: join ranges that touch, sort them, join again and group them. -/
def makeGroups (edges : EdgeSet) (mode : Option ℕ) : Option (List IrGroup) :=
  -- there must be a range
  if keptRanges edges mode = [] then none
  else
    some (groupRanges
      (joinRuns ((joinRuns (keptRanges edges mode)).insertionSort rangeLe)))

/-- One symbol of `find_coverage`; no symbol may be covered before. -/
def coverSymbol (bm : Symbols) (e : Byte) : Option Symbols :=
  if bm.getLsbD e then none else some (bm ||| BitVec.twoPow 256 e)

/-- One range of `find_coverage` -/
def coverRange (bm : Symbols) (r : IrRange) : Option Symbols :=
  if r.Nonempty then ((List.finRange 256).filter fun e => r.Has e).foldlM coverSymbol bm
  else none

def findCoverage (groups : List IrGroup) : Option Symbols :=
  (groups.flatMap IrGroup.ranges).foldlM coverRange 0

def bmCount (bm : Symbols) : ℕ :=
  ((List.finRange 256).filter fun c : Byte => bm.getLsbD c).length

/-- `bm_next`, with the first position to look at. -/
def bmNext (bm : Symbols) (i : ℕ) (value : Bool) : ℕ :=
  ((List.range' i (256 - i)).find? fun n => bm.getLsbD n == value).getD 256

/-- The size that `group_max` compares: each range counts one less than its symbols. -/
def IrGroup.size (g : IrGroup) : ℕ := (g.ranges.map fun r => r.stop.val - r.start.val).sum

/-- `group_max`: the largest size and the position of the first group that has it. -/
def groupMax (groups : List IrGroup) : ℕ × ℕ :=
  groups.zipIdx.foldl (fun curr p => if curr.1 < p.1.size then (p.1.size, p.2) else curr) (0, 0)

/-- The loop of `make_holes`, from the position after the last hole. -/
def makeHolesFrom (bm : Symbols) : ℕ → ℕ → List IrRange
  | 0, _ => []
  | fuel + 1, i =>
    let lo := bmNext bm i false
    if lo < 256 then
      let hi := bmNext bm (lo + 1) true
      ⟨Fin.ofNat 256 lo, Fin.ofNat 256 (hi - 1)⟩ :: makeHolesFrom bm fuel (hi + 1)
    else []

def makeHoles (bm : Symbols) : List IrRange := makeHolesFrom bm 257 0

/-- `make_state` for a state whose labels do not cover all symbols: an error group with a
default for the largest group, or the groups alone. -/
def makeIncomplete (complete : Bool) (groups : List IrGroup) (bm : Symbols) : Option IrStrategy :=
  let hole := 256 - bmCount bm
  if hole = 0 then if complete then some (.irComplete groups) else none
  else
    let max := groupMax groups
    if hole < max.1 then
      some (.irError (groups.getD max.2 ⟨0, []⟩).toState (makeHoles bm) (groups.eraseIdx max.2))
    else some (.irPartial groups)

/-- `make_state` for a state with a mode. -/
def makeDominant (statecount : ℕ) (edges : EdgeSet) (mode : ℕ × ℕ) : Option IrStrategy :=
  if mode.1 < statecount then
    if mode.2 = 256 then some (.irSame mode.1)
    else (makeGroups edges (some mode.1)).map (.irDominant mode.1)
  else none

def makeState (f : Fsm) (s : ℕ) : Option IrStrategy :=
  if edgeSetEmpty (f.state s).edges then some .irNone
  else if fsmIscomplete f s then
    (fsmFindmode (f.state s).edges).bind (makeDominant f.statecount (f.state s).edges)
  else
    (makeGroups (f.state s).edges none).bind fun groups =>
      (findCoverage groups).bind (makeIncomplete (fsmIscomplete f s) groups)

/-- The body of the loop of `make_ir`; `fsm_eager_output_count` asserts the flag. -/
def makeIrState (f : Fsm) (i : ℕ) : Option IrState :=
  if f.EagerFlagged i then
    (makeState f i).map fun strategy =>
      { isend := fsmIsend f i
        endids := if fsmIsend f i then f.endidInfo.get i else []
        eagerOutputs := (f.eagerOutputInfo.get i).insertionSort (· ≤ ·)
        strategy }
  else none

/-- How `make_ir` can fail: on an FSM that is no DFA, or at an assertion. -/
inductive IrFailure where
  | einval
  | assertion
  deriving DecidableEq, Repr

def makeIr (f : Fsm) : Except IrFailure Ir :=
  match fsmGetstart f with
  | none => .ok { start := 0, states := [] }
  | some start =>
    if fsmAll f fsmIsdfa then
      match (List.range f.statecount).mapM (makeIrState f) with
      | some states => .ok { start, states }
      | none => .error .assertion
    else .error .einval

end Libfsm
