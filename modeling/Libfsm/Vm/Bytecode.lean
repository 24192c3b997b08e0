import Libfsm.Vm.OpIr
import Libfsm.Lib.FetchMachine

/-!
# Bytecode

`dfavm_compile_vm` of `vm/vm.c`, which lays the opcodes out with branches as short as they can be,
and the first version of the bytecode in `vm/v1.c`: `encode_opasm_v1` writes it and `vm_match_v1`
runs it.

- `DfavmVmOp`: an opcode with its place and size
- `opStep`: what an opcode does, before it is written as bytes
- `opEncodingSize`, `assignRelDests`: the layout.  Sizes start at their largest and shrink until
  nothing changes
- `encodeOpasmV1`, `vmStepV1`, `vmMatchV1`: the bytes, one turn of the matching loop, and the loop

Offsets are numbers without a bound; the layout stops at an assertion where a distance leaves the
range of `int32_t`.  Bytes are written in little-endian order.
-/

namespace Libfsm

open Lib

/-! ## §1 Opcodes With A Place -/

/-- `enum dfavm_op_dest` -/
inductive VmDest where
  | none
  | short
  | near
  | far
  deriving DecidableEq, Repr

/-- The union of `struct dfavm_vm_op` -/
inductive VmOpInstr where
  | stop (endBits : VmEnd)
  | fetch (state : ℕ) (endBits : VmEnd)
  | branch (destIndex : ℕ) (dest : VmDest) (relDest : ℤ)
  deriving DecidableEq, Repr

/-- `struct dfavm_vm_op` -/
structure DfavmVmOp where
  offset : ℕ
  cmp : VmCmp
  instr : VmOpInstr
  cmpArg : Byte
  numEncodedBytes : ℕ
  deriving DecidableEq, Repr

/-- `build_vm_op`; the index of the destination comes from `assign_opcode_indexes`. -/
def buildVmOp (linked : List DfavmOpIr) (op : DfavmOpIr) : DfavmVmOp where
  offset := 0
  cmp := op.cmp
  instr :=
    match op.instr with
    | .stop endBits => .stop endBits
    | .fetch state endBits => .fetch state endBits
    | .branch dest => .branch (linked.findIdx fun op' => op'.label = some dest) .none 0
  cmpArg := op.cmpArg
  numEncodedBytes := 0

def buildVmOpArray (linked : List DfavmOpIr) : List DfavmVmOp := linked.map (buildVmOp linked)

/-- What the opcode at an index does on the symbol `c`. -/
def opStep (ops : List DfavmVmOp) (i : ℕ) (c : Byte) : Option (Action ℕ VmEnd) :=
  ops[i]?.map fun op =>
    match op.instr with
    | .fetch _ endBits => .fetch endBits (i + 1)
    | .stop endBits => if op.cmp.holds c op.cmpArg then .stop endBits else .goto (i + 1)
    | .branch dest _ _ => .goto (if op.cmp.holds c op.cmpArg then dest else i + 1)

/-! ## §2 Layout -/

/-- `op_encoding_size`: the opcode with its kind of destination, and the number of bytes. -/
def opEncodingSize (op : DfavmVmOp) (maxEnc : Bool) : DfavmVmOp × ℕ :=
  let nbytes := if op.cmp = .always then 1 else 2
  match op.instr with
  | .branch i _ rel =>
    if maxEnc = false ∧ -2 ^ 7 ≤ rel ∧ rel < 2 ^ 7 then
      ({ op with instr := .branch i .short rel }, nbytes + 1)
    else if maxEnc = false ∧ -2 ^ 15 ≤ rel ∧ rel < 2 ^ 15 then
      ({ op with instr := .branch i .near rel }, nbytes + 2)
    else ({ op with instr := .branch i .far rel }, nbytes + 4)
  | _ => (op, nbytes)

/-- The first loop of `assign_rel_dests` for one opcode: the largest encoding. -/
def widestOp (op : DfavmVmOp) : DfavmVmOp :=
  { (opEncodingSize op true).1 with numEncodedBytes := (opEncodingSize op true).2 }

/-- The loop of `assign_rel_dests` that adjusts the offsets -/
def setOffsets : ℕ → List DfavmVmOp → List DfavmVmOp
  | _, [] => []
  | off, op :: ops => { op with offset := off } :: setOffsets (off + op.numEncodedBytes) ops

/-- `a->nbytes` -/
def nbytes (ops : List DfavmVmOp) : ℕ := (ops.map DfavmVmOp.numEncodedBytes).sum

/-- One opcode in the loop of `assign_rel_dests`, and whether its size changes. -/
def relaxOp (ops : List DfavmVmOp) (op : DfavmVmOp) : Option (DfavmVmOp × Bool) :=
  match op.instr with
  | .branch i dest _ =>
    ops[i]?.bind fun target =>
      let diff : ℤ := target.offset - op.offset
      if -2 ^ 31 ≤ diff ∧ diff < 2 ^ 31 then
        let r := opEncodingSize { op with instr := .branch i dest diff } false
        some ({ r.1 with numEncodedBytes := r.2 }, r.2 ≠ op.numEncodedBytes)
      else none
  | _ => some (op, false)

/-- The loop of `assign_rel_dests`. -/
def relaxLoop : ℕ → List DfavmVmOp → Option (List DfavmVmOp)
  | 0, _ => none
  | fuel + 1, ops =>
    (ops.mapM (relaxOp ops)).bind fun r =>
      -- a round that changes a size makes the program shorter
      if r.any Prod.snd then relaxLoop fuel (setOffsets 0 (r.map Prod.fst))
      else some (r.map Prod.fst)

def assignRelDests (ops : List DfavmVmOp) : Option (List DfavmVmOp) :=
  let widest := setOffsets 0 (ops.map widestOp)
  relaxLoop (nbytes widest + 1) widest

/-! ## §3 Encoding -/

/-- `cmp_bits` -/
def VmCmp.bits : VmCmp → BitVec 8
  | always => 0
  | lt => 1
  | le => 2
  | ge => 3
  | gt => 4
  | eq => 5
  | ne => 6

/-- `rest_bits` of a stop or fetch -/
def VmEnd.bits : VmEnd → BitVec 8
  | fail => 0
  | succ => 1

/-- The bytes of a number in little-endian order. -/
def littleEndian (n : ℕ) {w : ℕ} (v : BitVec w) : List (BitVec 8) :=
  (List.range n).map fun i => v.extractLsb' (8 * i) 8

/-- The destination of a branch in `encode_opasm_v1`: `rest_bits`, and the bytes. -/
def encodeDestV1 (dest : VmDest) (rel : ℤ) : Option (BitVec 8 × List (BitVec 8)) :=
  match dest with
  | .short =>
    if -2 ^ 7 ≤ rel ∧ rel < 2 ^ 7 then some (0, littleEndian 1 (BitVec.ofInt 8 rel)) else none
  | .near =>
    if -2 ^ 15 ≤ rel ∧ rel < 2 ^ 15 then some (1, littleEndian 2 (BitVec.ofInt 16 rel)) else none
  | .far =>
    if -2 ^ 31 ≤ rel ∧ rel < 2 ^ 31 then some (2, littleEndian 4 (BitVec.ofInt 32 rel)) else none
  | .none => none

/-- The first byte of an opcode, and the argument of the comparison. -/
def encodeHeadV1 (op : DfavmVmOp) (instrBits restBits : BitVec 8) : List (BitVec 8) :=
  ((op.cmp.bits <<< 5) ||| (instrBits <<< 3) ||| restBits) ::
    if op.cmp = .always then [] else [BitVec.ofNat 8 op.cmpArg.val]

/-- One opcode in the loop of `encode_opasm_v1` -/
def encodeOpV1 (op : DfavmVmOp) : Option (List (BitVec 8)) :=
  match op.instr with
  | .stop endBits => some (encodeHeadV1 op 0 endBits.bits)
  | .fetch _ endBits => some (encodeHeadV1 op 1 endBits.bits)
  | .branch _ dest rel => (encodeDestV1 dest rel).map fun r => encodeHeadV1 op 2 r.1 ++ r.2

def encodeOpasmV1 (ops : List DfavmVmOp) : Option (List (BitVec 8)) :=
  (ops.mapM encodeOpV1).map List.flatten

/-- `dfavm_compile_vm`, with the first version of the bytecode. -/
def dfavmCompileVmV1 (linked : List DfavmOpIr) : Option (List (BitVec 8)) :=
  (assignRelDests (buildVmOpArray linked)).bind encodeOpasmV1

/-! ## §4 Matching -/

/-- `struct vm_state`.  A state of `VM_MATCHING` is `none`. -/
abbrev VmState := Session (BitVec 32) VmEnd

/-- The `state_init` of a match -/
def vmStateInit : VmState := ⟨0, none, .fail⟩

/-- The comparison in `vm_match_v1` -/
def cmpResult (cmp : BitVec 8) (ch : Byte) (arg : BitVec 8) : Bool :=
  match cmp.toNat with
  | 1 => ch.val < arg.toNat
  | 2 => ch.val ≤ arg.toNat
  | 3 => arg.toNat ≤ ch.val
  | 4 => arg.toNat < ch.val
  | 5 => ch.val = arg.toNat
  | 6 => ch.val ≠ arg.toNat
  | _ => false

/-- The number that a byte stands for in the test of `end` -/
def endOf (b : BitVec 8) : VmEnd := if b &&& 1 = 0 then .fail else .succ

/-- `packed.u` of two bytes -/
def packed16 (b₀ b₁ : BitVec 8) : BitVec 16 :=
  b₀.setWidth 16 ||| (b₁.setWidth 16 <<< (8 : ℕ))

/-- `packed.u` of four bytes -/
def packed32 (b₀ b₁ b₂ b₃ : BitVec 8) : BitVec 32 :=
  b₀.setWidth 32 ||| (b₁.setWidth 32 <<< (8 : ℕ)) ||| (b₂.setWidth 32 <<< (16 : ℕ)) |||
    (b₃.setWidth 32 <<< (24 : ℕ))

/-- The distance of a branch, read at `off`. -/
def readRel (ops : List (BitVec 8)) (dest : BitVec 8) (off : BitVec 32) : Option (BitVec 32) :=
  let byte (k : BitVec 32) := ops[(off + k).toNat]?
  if dest = 0 then (byte 0).map fun b => b.signExtend 32
  else if dest = 1 then
    (byte 0).bind fun b₀ => (byte 1).map fun b₁ => (packed16 b₀ b₁).signExtend 32
  else
    (byte 0).bind fun b₀ => (byte 1).bind fun b₁ => (byte 2).bind fun b₂ => (byte 3).map fun b₃ =>
      packed32 b₀ b₁ b₂ b₃

/-- The `pc` after a branch that is taken -/
def takeBranch (pc rel : BitVec 32) : BitVec 32 :=
  if 0 ≤ rel.toInt then pc + rel else pc - -rel

/-- The condition of a stop or branch at `pc`: whether it holds, and where the opcode goes on. -/
def readCond (ops : List (BitVec 8)) (pc : BitVec 32) (ch : Byte) (cmp : BitVec 8) :
    Option (Bool × BitVec 32) :=
  if cmp = 0 then some (true, pc + 1)
  else ops[(pc + 1).toNat]?.map fun arg => (cmpResult cmp ch arg, pc + 1 + 1)

/-- One turn of the loop of `vm_match_v1` -/
def vmStepV1 (ops : List (BitVec 8)) (pc : BitVec 32) (ch : Byte) :
    Option (Action (BitVec 32) VmEnd) :=
  ops[pc.toNat]?.bind fun b =>
    let op := (b >>> 3) &&& 3
    if op = 1 then some (.fetch (endOf b) (pc + 1))
    else
      let dest := b &&& 3
      (readCond ops pc ch (b >>> 5)).bind fun r =>
        if r.1 then
          if op = 0 then some (.stop (endOf b))
          else (readRel ops dest r.2).map fun rel => .goto (takeBranch pc rel)
        else if op = 2 then some (.goto (r.2 + BitVec.ofNat 32 (1 <<< dest.toNat)))
        else some (.goto r.2)

/-- `vm_match_v1`.  More turns than there are bytes without a fetch would be turns without end. -/
def vmMatchV1 (ops : List (BitVec 8)) (st : VmState) (buf : List Byte) : Option VmState :=
  feed (vmStepV1 ops) (fun buf => (buf.length + 1) * (ops.length + 1)) 0 st buf

def vmEnd (st : VmState) : VmEnd := st.verdict

end Libfsm
