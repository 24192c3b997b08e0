import Libfsm.Print.Ir

/-!
# Translating The IR To Opcodes

`dfavm_compile_ir` of `vm/ir.c`: each state of the codegen IR becomes a chain of opcodes, the
chains are put in order, and branches that are not needed are taken out.

- `DfavmOpIr`: an opcode.  The pointers between opcodes all lead to the first opcode of a state;
  such an opcode carries the number of its state as a label, and a branch names the label
- `analyzeTable`, `xlateTableRanges`, `xlateTableCases`, `initialTranslateTable`: the opcodes for
  a table of destinations
- `initialTranslateState`, `fixupDests`, `orderBasicBlocks`, `eliminateUnnecessaryBranches`: the
  passes

A destination of `-1` in a table is `none`.  An assertion that fails stops the program; the
functions return `none` there.  The examples and end IDs that are printed with an opcode are left
out, and so are the longest run and the lone symbols of a table, which nothing reads.
-/

namespace Libfsm

open Lib

/-! ## §1 Opcodes -/

/-- `enum dfavm_op_cmp` -/
inductive VmCmp where
  | always
  | lt
  | le
  | ge
  | gt
  | eq
  | ne
  deriving DecidableEq, Repr

/-- `enum dfavm_op_end` -/
inductive VmEnd where
  | fail
  | succ
  deriving DecidableEq, Repr

/-- `enum dfavm_op_instr`, with the part of the union that goes with it. -/
inductive VmInstr where
  | stop (endBits : VmEnd)
  | fetch (state : ℕ) (endBits : VmEnd)
  | branch (destState : ℕ)
  deriving DecidableEq, Repr

/-- `struct dfavm_op_ir` -/
structure DfavmOpIr where
  /-- The state whose entry in `a->ops` points to this opcode -/
  label : Option ℕ
  numIncoming : ℕ
  cmp : VmCmp
  cmpArg : Byte
  instr : VmInstr
  deriving DecidableEq, Repr

/-- Whether the comparison of a symbol with the argument holds. -/
def VmCmp.holds : VmCmp → Byte → Byte → Bool
  | always, _, _ => true
  | lt, ch, arg => ch < arg
  | le, ch, arg => ch ≤ arg
  | ge, ch, arg => arg ≤ ch
  | gt, ch, arg => arg < ch
  | eq, ch, arg => ch = arg
  | ne, ch, arg => ch ≠ arg

def opasmNewStop (cmp : VmCmp) (arg : Byte) (endBits : VmEnd) : DfavmOpIr :=
  ⟨none, 0, cmp, arg, .stop endBits⟩

def opasmNewFetch (state : ℕ) (endBits : VmEnd) : DfavmOpIr :=
  ⟨none, 0, .always, 0, .fetch state endBits⟩

def opasmNewBranch (cmp : VmCmp) (arg : Byte) (destState : ℕ) : DfavmOpIr :=
  ⟨none, 0, cmp, arg, .branch destState⟩

/-! ## §2 Tables -/

/-- The array of `struct dfa_table` -/
abbrev DfaTable := Byte → Option ℕ

/-- The order of `cmp_mode_dests` -/
def destLe : Option ℕ → Option ℕ → Prop
  | none, _ => True
  | some _, none => False
  | some a, some b => a ≤ b

instance : DecidableRel destLe
  | none, _ => inferInstanceAs (Decidable True)
  | some _, none => inferInstanceAs (Decidable False)
  | some a, some b => inferInstanceAs (Decidable (a ≤ b))

/-- What `analyze_table` counts: the entries with a destination, and the first and the last of
them. -/
structure TableInfo where
  ndst : ℕ
  dstIndLo : Option Byte
  dstIndHi : Option Byte
  deriving DecidableEq, Repr

/-- One entry in the first loop of `analyze_table` -/
def analyzeEntry (tbl : DfaTable) (info : TableInfo) (i : Byte) : TableInfo :=
  if (tbl i).isSome then ⟨info.ndst + 1, info.dstIndLo.or (some i), some i⟩ else info

/-- The second loop of `analyze_table`, over the sorted destinations: the start of a run, the mode
and its count. -/
def modeStep (dests : List (Option ℕ)) (st : ℕ × Option ℕ × ℕ) (i : ℕ) : ℕ × Option ℕ × ℕ :=
  if i = 256 ∨ dests.getD st.1 none ≠ dests.getD i none then
    -- the start moves on only together with the mode
    if st.2.2 < i - st.1 then (i, dests.getD st.1 none, i - st.1) else st
  else st

/-- The counts of `analyze_table` -/
def analyzeTable (tbl : DfaTable) : TableInfo :=
  (List.finRange 256).foldl (analyzeEntry tbl) ⟨0, none, none⟩

/-- The mode that `analyze_table` finds, and its count. -/
def tableMode (tbl : DfaTable) : Option ℕ × ℕ :=
  let dests := ((List.finRange 256).map tbl).insertionSort destLe
  ((List.range' 1 256).foldl (modeStep dests) (0, none, 0)).2

/-- The opcode for a destination in a table: a failure if there is none. -/
def opasmNewDest (cmp : VmCmp) (arg : Byte) : Option ℕ → DfavmOpIr
  | none => opasmNewStop cmp arg .fail
  | some dst => opasmNewBranch cmp arg dst

/-- One turn of the loop of `xlate_table_ranges`: the start of the range, and the opcodes so
far. -/
def xlateRangesStep (tbl : DfaTable) (st : Byte × List DfavmOpIr) (i : Byte) :
    Byte × List DfavmOpIr :=
  if tbl st.1 ≠ tbl i then
    (i, st.2 ++ [opasmNewDest (if st.1.val + 1 < i.val then .le else .eq) (i - 1) (tbl st.1)])
  else st

def xlateTableRanges (tbl : DfaTable) : List DfavmOpIr :=
  let st := (List.finRange 256).tail.foldl (xlateRangesStep tbl) (0, [])
  st.2 ++ [opasmNewDest .always 0 (tbl st.1)]

def xlateTableCases (tbl : DfaTable) (mdst : Option ℕ) : List DfavmOpIr :=
  (List.finRange 256).filterMap
      (fun i => if tbl i = mdst then none else some (opasmNewDest .eq i (tbl i))) ++
    [opasmNewDest .always 0 mdst]

def initialTranslateTable (tbl : DfaTable) : List DfavmOpIr :=
  let info := analyzeTable tbl
  if info.ndst = 1 then
    let sym := info.dstIndLo.getD 0
    [opasmNewStop .ne sym .fail, opasmNewBranch .always 0 ((tbl sym).getD 0)]
  else
    let ranges := xlateTableRanges tbl
    let cases := xlateTableCases tbl (tableMode tbl).1
    if cases.length < ranges.length then cases else ranges

def rangesToTable (tbl : DfaTable) (ranges : List IrRange) (dst : Option ℕ) : DfaTable :=
  ranges.foldl (fun tbl r c => if r.Has c then dst else tbl c) tbl

def groupToTable (tbl : DfaTable) (grp : IrGroup) : DfaTable :=
  rangesToTable tbl grp.ranges (some grp.toState)

/-- `initial_translate_partial`, which may be called for a partial state only. -/
def initialTranslatePartial : IrStrategy → Option (List DfavmOpIr)
  | .irPartial groups => some (initialTranslateTable (groups.foldl groupToTable fun _ => none))
  | _ => none

def initialTranslateDominant (mode : ℕ) (groups : List IrGroup) : List DfavmOpIr :=
  initialTranslateTable (groups.foldl groupToTable fun _ => some mode)

def initialTranslateError (mode : ℕ) (error : List IrRange) (groups : List IrGroup) :
    List DfavmOpIr :=
  initialTranslateTable
    (groups.foldl groupToTable (rangesToTable (fun _ => some mode) error none))

/-! ## §3 The Passes -/

/-- The opcodes after the fetch in `initial_translate_state`. -/
def initialTranslateStrategy : IrStrategy → Option (List DfavmOpIr)
  | .irNone => some [opasmNewStop .always 0 .fail]
  | .irSame toState => some [opasmNewBranch .always 0 toState]
  -- a complete state is handed on as a partial one is
  | .irComplete groups => initialTranslatePartial (.irComplete groups)
  | .irPartial groups => initialTranslatePartial (.irPartial groups)
  | .irDominant mode groups => some (initialTranslateDominant mode groups)
  | .irError mode error groups => some (initialTranslateError mode error groups)

def initialTranslateState (st : IrState) (ind : ℕ) : Option (List DfavmOpIr) :=
  if st.isend = true ∧ st.strategy = .irSame ind then
    -- an end state that is never left needs no fetch
    some [{ opasmNewStop .always 0 .succ with label := some ind }]
  else
    (initialTranslateStrategy st.strategy).map fun body =>
      { opasmNewFetch ind (if st.isend then .succ else .fail) with label := some ind } :: body

/-- The destination of a branch. -/
def DfavmOpIr.branchDest (op : DfavmOpIr) : Option ℕ :=
  match op.instr with
  | .branch dest => some dest
  | _ => none

/-- One more branch leads to the first opcode of the chain. -/
def addIncoming : List DfavmOpIr → List DfavmOpIr
  | [] => []
  | op :: chain => { op with numIncoming := op.numIncoming + 1 } :: chain

def fixupDests (ops : List (List DfavmOpIr)) : List (List DfavmOpIr) :=
  (ops.flatten.filterMap DfavmOpIr.branchDest).foldl (fun ops dest => ops.modify dest addIncoming)
    ops

/-- The state that `order_basic_blocks` puts after `st`: where the last branch leads that leads
out of the trace, or the first state that is not in the trace. -/
def nextBlock (ops : List (List DfavmOpIr)) (trace : List ℕ) (st : ℕ) : Option ℕ :=
  (((ops.getD st []).filterMap DfavmOpIr.branchDest).reverse.find? fun d => d ∉ trace).or
    ((List.range ops.length).find? fun j => j ∉ trace)

/-- The loop of `order_basic_blocks`; each state is added once. -/
def traceFrom (ops : List (List DfavmOpIr)) : ℕ → List ℕ → ℕ → List ℕ
  | 0, trace, _ => trace
  | fuel + 1, trace, st =>
    match nextBlock ops (trace ++ [st]) st with
    | none => trace ++ [st]
    | some st' => traceFrom ops fuel (trace ++ [st]) st'

def orderBasicBlocks (ops : List (List DfavmOpIr)) (start : ℕ) : List DfavmOpIr :=
  (traceFrom ops ops.length [] start).flatMap fun st => ops.getD st []

/-- The condition that holds where the other does not; there is none for `always`. -/
def VmCmp.invert : VmCmp → Option VmCmp
  | always => none
  | lt => some ge
  | le => some gt
  | eq => some ne
  | ge => some lt
  | gt => some le
  | ne => some eq

/-- One branch fewer leads here. -/
def DfavmOpIr.dropIncoming (op : DfavmOpIr) : DfavmOpIr :=
  { op with numIncoming := op.numIncoming - 1 }

/-- A branch to the next opcode goes. -/
def eliminateToNext (dest : ℕ) : List DfavmOpIr → Option (List DfavmOpIr)
  | next :: rest => if next.label = some dest then some (next.dropIncoming :: rest) else none
  | [] => none

/-- The opcode is a fetch. -/
def DfavmOpIr.isFetch (op : DfavmOpIr) : Bool :=
  match op.instr with
  | .fetch _ _ => true
  | _ => false

/-- A branch over one opcode that always stops or branches: that opcode takes the place of the
branch, with the inverted condition. -/
def eliminateOverNext (op : DfavmOpIr) (dest : ℕ) : List DfavmOpIr → Option (List DfavmOpIr)
  | next :: target :: rest =>
    if target.label = some dest ∧ next.isFetch = false ∧ next.numIncoming = 0 ∧
        next.cmp = .always then
      op.cmp.invert.map fun cmp =>
        { next with label := op.label, cmp, cmpArg := op.cmpArg } :: target.dropIncoming :: rest
    else none
  | _ => none

/-- What the loop of `eliminate_unnecessary_branches` makes of an opcode and what follows it, if
it takes an opcode out. -/
def eliminateAt (op : DfavmOpIr) (rest : List DfavmOpIr) : Option (List DfavmOpIr) :=
  match op.instr with
  | .branch dest =>
    if 0 < op.numIncoming then none
    else (eliminateToNext dest rest).or (eliminateOverNext op dest rest)
  | _ => none

/-- The two ways in which an opcode is taken out. -/
theorem eliminateAt_cases {op : DfavmOpIr} {rest l : List DfavmOpIr}
    (h : eliminateAt op rest = some l) : ∃ dest, op.instr = .branch dest ∧ op.numIncoming = 0 ∧
      ((∃ next rest', rest = next :: rest' ∧ next.label = some dest ∧
          l = next.dropIncoming :: rest') ∨
        ∃ next target rest' cmp, rest = next :: target :: rest' ∧ target.label = some dest ∧
          next.isFetch = false ∧ next.numIncoming = 0 ∧ next.cmp = .always ∧
          op.cmp.invert = some cmp ∧
          l = { next with label := op.label, cmp, cmpArg := op.cmpArg } ::
            target.dropIncoming :: rest') := by
  unfold eliminateAt at h
  split at h
  case h_2 => exact absurd h (by simp)
  case h_1 dest hinstr =>
    split at h
    · exact absurd h (by simp)
    · refine ⟨dest, hinstr, by omega, ?_⟩
      rcases Option.or_eq_some_iff.mp h with hnext | ⟨-, hover⟩
      · left
        unfold eliminateToNext at hnext
        split at hnext
        · rename_i next rest'
          split at hnext
          · rename_i hlabel
            exact ⟨next, rest', rfl, hlabel, (Option.some.inj hnext).symm⟩
          · exact absurd hnext (by simp)
        · exact absurd hnext (by simp)
      · right
        unfold eliminateOverNext at hover
        split at hover
        · rename_i next target rest'
          split at hover
          · rename_i hcond
            obtain ⟨cmp, hcmp, rfl⟩ := Option.map_eq_some_iff.mp hover
            exact ⟨next, target, rest', cmp, rfl, hcond.1, hcond.2.1, hcond.2.2.1, hcond.2.2.2,
              hcmp, rfl⟩
          · exact absurd hover (by simp)
        · exact absurd hover (by simp)

theorem length_eliminateAt {op : DfavmOpIr} {rest l : List DfavmOpIr}
    (h : eliminateAt op rest = some l) : l.length = rest.length := by
  obtain ⟨dest, -, -, ⟨next, rest', rfl, -, rfl⟩ |
    ⟨next, target, rest', cmp, rfl, -, -, -, -, -, rfl⟩⟩ := eliminateAt_cases h
  · rfl
  · rfl

/-- One turn of the outer loop of `eliminate_unnecessary_branches`: the opcodes that are left, and
how many are not. -/
def eliminatePass : List DfavmOpIr → List DfavmOpIr × ℕ
  | [] => ([], 0)
  | op :: rest =>
    match h : eliminateAt op rest with
    | some l =>
      -- the same place is looked at again
      have : l.length ≤ rest.length := (length_eliminateAt h).le
      let r := eliminatePass l
      (r.1, r.2 + 1)
    | none =>
      let r := eliminatePass rest
      (op :: r.1, r.2)
termination_by l => l.length

theorem length_eliminatePass (l : List DfavmOpIr) :
    (eliminatePass l).1.length + (eliminatePass l).2 = l.length := by
  fun_induction eliminatePass l with
  | case1 => rfl
  | case2 op rest l h _ r ih =>
    rw [List.length_cons, ← length_eliminateAt h, ← ih]
    rfl
  | case3 op rest h r ih =>
    rw [List.length_cons, List.length_cons, ← ih]
    exact add_right_comm _ _ _

def eliminateUnnecessaryBranches (l : List DfavmOpIr) : List DfavmOpIr :=
  if h : (eliminatePass l).2 = 0 then (eliminatePass l).1
  else
    have : (eliminatePass l).1.length < l.length := by
      have := length_eliminatePass l
      omega
    eliminateUnnecessaryBranches (eliminatePass l).1
termination_by l.length

/-- `dfavm_compile_ir`; `optim` is `FSM_VM_COMPILE_OPTIM`. -/
def dfavmCompileIr (ir : Ir) (optim : Bool) : Option (List DfavmOpIr) :=
  if ir.states = [] then some [{ opasmNewStop .always 0 .fail with label := some 0 }]
  else
    (ir.states.zipIdx.mapM fun p => initialTranslateState p.1 p.2).map fun ops =>
      let linked := orderBasicBlocks (fixupDests ops) ir.start
      if optim then eliminateUnnecessaryBranches linked else linked

end Libfsm
