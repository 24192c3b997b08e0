import Libfsm.Vm.V1

/-!
# The Second Version Of The Bytecode

`encode_opasm_v2` and `vm_match_v2` of `vm/v2.c`.  Every opcode is one word, and a branch that is
too far for its field of 16 bits has its destination in an auxiliary table.

- `encodeOpasmV2`, `vmStepV2`: the words with the table, and one turn of the matching loop
- `v2dec_packV2`: the fields of a word are read back
- `vmStepV2_word`: the word of an opcode does what the opcode does
- `encodeOpasmV2_iff`: the program does what the opcodes do, and every far destination is found in
  the table, exactly if numbering the far branches modulo `2 ^ 16` confuses no destinations
-/

namespace Libfsm

open Lib
open List hiding nil cons
open BitVec hiding not_not nil cons

variable {ops : List DfavmVmOp} {op : DfavmVmOp} {abuf : List (BitVec 32)} {i k n d : ℕ}

/-! ## §1 Model -/

/-- `struct dfavm_v2` -/
structure DfavmV2 where
  abuf : List (BitVec 32)
  ops : List (BitVec 32)
  deriving DecidableEq, Repr

/-- The word that `encode_opasm_v2` makes of its parts. -/
def packV2 (instrBits cmpBits resultBit cmpArg : BitVec 8) (destArg : BitVec 16) : BitVec 32 :=
  (instrBits.setWidth 32 <<< 28) ||| (cmpBits.setWidth 32 <<< 25) |||
    (resultBit.setWidth 32 <<< 24) ||| (cmpArg.setWidth 32 <<< 16) ||| destArg.setWidth 32

/-- The destination of a branch that does not fit into 16 bits. -/
def farDest (i : ℕ) (op : DfavmVmOp) : Option ℕ :=
  match op.instr with
  | .branch dest _ _ =>
    if -2 ^ 15 ≤ (dest : ℤ) - i ∧ (dest : ℤ) - i < 2 ^ 15 then none else some dest
  | _ => none

/-- The word of the opcode at an index, if the table has `alen` entries already. -/
def wordV2 (i alen : ℕ) (op : DfavmVmOp) : BitVec 32 :=
  let arg := BitVec.ofNat 8 op.cmpArg.val
  match op.instr with
  | .stop endBits => packV2 0 op.cmp.bits endBits.bits arg 0
  | .fetch _ endBits => packV2 1 0 endBits.bits 0 0
  | .branch dest _ _ =>
    match farDest i op with
    | none => packV2 2 op.cmp.bits 0 arg (BitVec.ofInt 16 (dest - i))
    -- the index of the entry is cut to 16 bits
    | some _ => packV2 3 op.cmp.bits 0 arg (BitVec.ofNat 16 alen)

/-- The loop of `encode_opasm_v2` -/
def encodeLoopV2 : ℕ → List (BitVec 32) → List DfavmVmOp → DfavmV2
  | _, abuf, [] => ⟨abuf, []⟩
  | i, abuf, op :: ops =>
    let vm := encodeLoopV2 (i + 1) (abuf ++ (farDest i op).toList.map (BitVec.ofNat 32)) ops
    { vm with ops := wordV2 i abuf.length op :: vm.ops }

def encodeOpasmV2 (ops : List DfavmVmOp) : DfavmV2 := encodeLoopV2 0 [] ops

/-- What `V2DEC` takes out of a word. -/
structure V2Fields where
  op : BitVec 8
  cmp : BitVec 8
  endBit : BitVec 8
  cmpArg : BitVec 8
  destArg : BitVec 16
  deriving DecidableEq, Repr

def v2dec (w : BitVec 32) : V2Fields where
  op := (w >>> 28).setWidth 8
  cmp := ((w >>> 25) &&& 0x7).setWidth 8
  endBit := ((w >>> 24) &&& 0x1).setWidth 8
  cmpArg := ((w >>> 16) &&& 0xff).setWidth 8
  destArg := (w &&& 0xffff).setWidth 16

/-- One turn of the loop of `vm_match_v2` -/
def vmStepV2 (vm : DfavmV2) (pc : BitVec 32) (ch : Byte) : Option (Action (BitVec 32) VmEnd) :=
  vm.ops[pc.toNat]?.bind fun w =>
    let r := v2dec w
    if r.op = 1 then some (.fetch (endOf r.endBit) (pc + 1))
    -- no case of the switch is for 7, so that the result stays as it is
    else if r.cmp = 0 ∨ r.cmp = 7 ∨ cmpResult r.cmp ch r.cmpArg then
      if r.op = 0 then some (.stop (endOf r.endBit))
      else if r.op = 2 then some (.goto (pc + r.destArg.signExtend 32))
      else if r.op = 3 then vm.abuf[r.destArg.toNat]?.map .goto
      else none
    else some (.goto (pc + 1))

/-! ## §2 Words -/

section Word

variable {a b c : BitVec 8} (ha : a.toNat < 4) (hb : b.toNat < 8) (hc : c.toNat < 2)
  (arg : BitVec 8) (dest : BitVec 16)
include ha hb hc

theorem toNat_packV2 : (packV2 a b c arg dest).toNat =
    a.toNat * 2 ^ 28 + b.toNat * 2 ^ 25 + c.toNat * 2 ^ 24 + arg.toNat * 2 ^ 16 + dest.toNat := by
  -- the fields are added one by one, each below the ones before
  have h₁ := toNat_shiftLeft_setWidth (b := a) (n := 28) (w := 32) (by omega)
  have h₂ := toNat_or_below (x := a.setWidth 32 <<< 28) (b := b) (n := 25) (m := 28) (by omega)
    (by omega) (by omega)
  have h₃ := toNat_or_below (x := a.setWidth 32 <<< 28 ||| b.setWidth 32 <<< 25) (b := c) (n := 24)
    (m := 25) (by omega) (by omega) (by omega)
  have h₄ := toNat_or_below
    (x := a.setWidth 32 <<< 28 ||| b.setWidth 32 <<< 25 ||| c.setWidth 32 <<< 24) (b := arg)
    (n := 16) (m := 24) (by omega) (by omega) (by omega)
  have h₅ := toNat_or_below (x := a.setWidth 32 <<< 28 ||| b.setWidth 32 <<< 25 |||
    c.setWidth 32 <<< 24 ||| arg.setWidth 32 <<< 16) (b := dest) (n := 0) (m := 16) (by omega)
    (by omega) (by omega)
  rw [shiftLeft_zero] at h₅
  rw [packV2]
  omega

theorem v2dec_packV2 : v2dec (packV2 a b c arg dest) = ⟨a, b, c, arg, dest⟩ := by
  have hw := toNat_packV2 ha hb hc arg dest
  rw [v2dec, V2Fields.mk.injEq]
  refine ⟨?_, ?_, ?_, ?_, ?_⟩ <;> apply eq_of_toNat_eq <;> rw [toNat_setWidth]
  · rw [toNat_ushiftRight]
    omega
  · rw [toNat_mask (n := 3) rfl, toNat_ushiftRight, Nat.shiftRight_eq_div_pow, hw]
    omega
  · rw [toNat_mask (n := 1) rfl, toNat_ushiftRight, Nat.shiftRight_eq_div_pow, hw]
    omega
  · rw [toNat_mask (n := 8) rfl, toNat_ushiftRight]
    omega
  · rw [toNat_mask (n := 16) rfl]
    omega

end Word

theorem VmCmp.bits_lt (cmp : VmCmp) : cmp.bits.toNat < 8 := by
  cases cmp <;> decide

theorem VmEnd.bits_lt (e : VmEnd) : e.bits.toNat < 2 := by
  cases e <;> decide

theorem endOf_vmEnd_bits (e : VmEnd) : endOf e.bits = e := by
  cases e <;> decide

/-- The comparison of a word is that of the opcode. -/
theorem cmpHolds_iff (cmp : VmCmp) (c arg : Byte) :
    (cmp.bits = 0 ∨ cmp.bits = 7 ∨ cmpResult cmp.bits c (BitVec.ofNat 8 arg.val) = true) ↔
      cmp.holds c arg = true := by
  by_cases h : cmp = .always
  · subst h
    exact iff_of_true (Or.inl rfl) rfl
  · rw [cmpResult_bits h, or_iff_right, or_iff_right]
    all_goals cases cmp <;> first | exact absurd rfl h | decide

/-- **The word of an opcode** does what the opcode does, if a far destination is in the table. -/
theorem vmStepV2_word {vm : DfavmV2} (hop : ops[i]? = some op)
    (hword : vm.ops[i]? = some (wordV2 i n op)) (hi : i < 2 ^ 32)
    (hfar : ∀ d, farDest i op = some d →
      vm.abuf[n % 2 ^ 16]? = some (BitVec.ofNat 32 d)) (c : Byte) :
    vmStepV2 vm (BitVec.ofNat 32 i) c = (opStep ops i c).map (Action.map (BitVec.ofNat 32)) := by
  have hpc : (BitVec.ofNat 32 i).toNat = i := by rw [toNat_ofNat, Nat.mod_eq_of_lt hi]
  have hcmp := cmpHolds_iff op.cmp c op.cmpArg
  rw [vmStepV2, hpc, hword, Option.bind_some, opStep, hop, Option.map_some, wordV2]
  cases hinstr : op.instr with
  | fetch s e =>
    dsimp only
    rw [v2dec_packV2 (by decide) (by decide) e.bits_lt, endOf_vmEnd_bits, ofNat_add_one]
    rfl
  | stop e =>
    dsimp only
    rw [v2dec_packV2 (by decide) op.cmp.bits_lt e.bits_lt, endOf_vmEnd_bits, ofNat_add_one]
    by_cases hholds : op.cmp.holds c op.cmpArg = true
    · rw [if_pos (hcmp.mpr hholds), if_pos hholds]
      rfl
    · rw [if_neg (mt hcmp.mp hholds), if_neg hholds]
      rfl
  | branch dest kind rel =>
    dsimp only
    rw [ofNat_add_one]
    cases hd : farDest i op with
    | none =>
      -- the distance fits into the field
      simp only [farDest, hinstr, ite_eq_left_iff, reduceCtorEq, imp_false, not_not] at hd
      have hgoto : BitVec.ofNat 32 i + (BitVec.ofInt 16 ((dest : ℤ) - i)).signExtend 32 =
          BitVec.ofNat 32 dest := by
        rw [signExtend_ofInt (by norm_num) (by norm_num) hd.1 hd.2, ← ofInt_natCast,
          ← ofInt_add, ← ofInt_natCast]
        congr 1
        omega
      rw [v2dec_packV2 (by decide) op.cmp.bits_lt (by decide)]
      by_cases hholds : op.cmp.holds c op.cmpArg = true
      · rw [if_pos (hcmp.mpr hholds), hgoto, if_pos hholds]
        rfl
      · rw [if_neg (mt hcmp.mp hholds), if_neg hholds]
        rfl
    | some d =>
      have htable := hfar d hd
      obtain rfl : dest = d := by
        simp only [farDest, hinstr] at hd
        split at hd
        · cases hd
        · exact Option.some.inj hd
      rw [v2dec_packV2 (by decide) op.cmp.bits_lt (by decide)]
      by_cases hholds : op.cmp.holds c op.cmpArg = true
      · rw [if_pos (hcmp.mpr hholds), toNat_ofNat, htable, if_pos hholds]
        rfl
      · rw [if_neg (mt hcmp.mp hholds), if_neg hholds]
        rfl

/-! ## §3 Programs -/

/-- The destinations of the far branches, in their order. -/
def farDests : ℕ → List DfavmVmOp → List ℕ
  | _, [] => []
  | i, op :: ops => (farDest i op).toList ++ farDests (i + 1) ops

theorem encodeLoopV2_abuf (i : ℕ) (abuf : List (BitVec 32)) (ops : List DfavmVmOp) :
    (encodeLoopV2 i abuf ops).abuf = abuf ++ (farDests i ops).map (BitVec.ofNat 32) := by
  induction ops generalizing i abuf with
  | nil => simp [encodeLoopV2, farDests]
  | cons op ops ih => simp [encodeLoopV2, farDests, ih]

theorem encodeLoopV2_ops (i : ℕ) (abuf : List (BitVec 32)) (ops : List DfavmVmOp) (k : ℕ) :
    (encodeLoopV2 i abuf ops).ops[k]? = ops[k]?.map
      (wordV2 (i + k) (abuf.length + (farDests i (ops.take k)).length)) := by
  induction ops generalizing i abuf k with
  | nil => rfl
  | cons op ops ih =>
    cases k with
    | zero => simp [encodeLoopV2, farDests]
    | succ k =>
      rw [encodeLoopV2, getElem?_cons_succ, ih, getElem?_cons_succ, take_succ_cons,
        farDests, length_append, length_append, length_map, add_assoc _ _ k,
        add_comm 1 k, add_assoc abuf.length]

theorem mem_farDests (h : d ∈ farDests i ops) : ∃ op ∈ ops, ∃ k, farDest k op = some d := by
  induction ops generalizing i with
  | nil => cases h
  | cons op ops ih =>
    rcases mem_append.mp h with h | h
    · exact ⟨op, mem_cons_self, i, Option.mem_toList.mp h⟩
    · obtain ⟨op', hop, hk⟩ := ih h
      exact ⟨op', mem_cons_of_mem op hop, hk⟩

/-- The number of opcodes and their destinations are of type `uint32_t`. -/
structure FitsWord (ops : List DfavmVmOp) : Prop where
  length_lt : ops.length < 2 ^ 32
  target_lt : ∀ op ∈ ops, ∀ j, op.instr.target = some j → j < 2 ^ 32

/-- What is expected of a program: it runs as the opcodes do, whatever the buffers are, and has the
destinations of all far branches. -/
structure FollowsOps (vm : DfavmV2) (ops : List DfavmVmOp) : Prop where
  behaves : ∀ (fuel : List Byte → ℕ) (bufs : List (List Byte)),
    bufs.foldlM (feed (vmStepV2 vm) fuel 0) vmStateInit =
      (bufs.foldlM (feed (opStep ops) fuel 0) ⟨0, none, .fail⟩).map (Session.map (BitVec.ofNat 32))
  recovers : ∀ i op d, ops[i]? = some op → farDest i op = some d → ∃ w, vm.ops[i]? = some w ∧
    vm.abuf[(v2dec w).destArg.toNat]? = some (BitVec.ofNat 32 d)

/-- The number of a far branch, cut to 16 bits, is that of one that leads to the same place. -/
def FarDestsKept (ops : List DfavmVmOp) : Prop :=
  ∀ i op d, ops[i]? = some op → farDest i op = some d →
    (farDests 0 ops)[(farDests 0 (ops.take i)).length % 2 ^ 16]? = some d

theorem farDest_target (h : farDest i op = some d) : op.instr.target = some d := by
  unfold farDest at h
  cases hinstr : op.instr with
  | branch dest kind rel =>
    simp only [hinstr] at h
    split at h
    · cases h
    · exact h
  | _ => simp [hinstr] at h

/-- The index that a far branch has for its entry in the table. -/
theorem destArg_wordV2 (h : farDest i op = some d) (n : ℕ) :
    (v2dec (wordV2 i n op)).destArg.toNat = n % 2 ^ 16 := by
  have htarget := farDest_target h
  unfold wordV2
  cases hinstr : op.instr with
  | branch dest kind rel =>
    rw [h]
    rw [v2dec_packV2 (by decide) op.cmp.bits_lt (by decide), toNat_ofNat]
  | _ => simp [hinstr, VmOpInstr.target] at htarget

section Program

variable (hops : FitsWord ops)
include hops

/-- The table has the destinations of the far branches. -/
theorem getElem?_abuf (hd : d < 2 ^ 32) (m : ℕ) :
    (encodeOpasmV2 ops).abuf[m]? = some (BitVec.ofNat 32 d) ↔ (farDests 0 ops)[m]? = some d := by
  rw [encodeOpasmV2, encodeLoopV2_abuf, nil_append, getElem?_map, Option.map_eq_some_iff]
  constructor
  · intro ⟨d', hd', heq⟩
    obtain ⟨op, hop, k, hfar⟩ := mem_farDests (mem_of_getElem? hd')
    have hlt := hops.target_lt op hop d' (farDest_target hfar)
    have hnat := congrArg BitVec.toNat heq
    rw [toNat_ofNat, toNat_ofNat, Nat.mod_eq_of_lt hlt, Nat.mod_eq_of_lt hd] at hnat
    rwa [hnat] at hd'
  · exact fun h => ⟨d, h, rfl⟩

omit hops in
/-- The word of an opcode has the number of the far branches before it. -/
theorem getElem?_encodeOpasmV2 (ops : List DfavmVmOp) (i : ℕ) : (encodeOpasmV2 ops).ops[i]? =
    ops[i]?.map (wordV2 i (farDests 0 (ops.take i)).length) := by
  rw [encodeOpasmV2, encodeLoopV2_ops, zero_add, length_nil, zero_add]

/-- All far destinations are found exactly if their numbers may be cut to 16 bits. -/
theorem recovers_iff : (∀ i op d, ops[i]? = some op → farDest i op = some d →
      ∃ w, (encodeOpasmV2 ops).ops[i]? = some w ∧
        (encodeOpasmV2 ops).abuf[(v2dec w).destArg.toNat]? = some (BitVec.ofNat 32 d)) ↔
    FarDestsKept ops := by
  refine forall_congr' fun i => forall_congr' fun op => forall_congr' fun d => ?_
  refine forall_congr' fun hop => forall_congr' fun hfar => ?_
  have hlt := hops.target_lt op (mem_of_getElem? hop) d (farDest_target hfar)
  rw [← getElem?_abuf hops hlt, ← destArg_wordV2 hfar]
  simp only [getElem?_encodeOpasmV2, hop, Option.map_some, Option.some.injEq, exists_eq_left']

/-- One turn of the loop, anywhere in the program. -/
theorem vmStepV2_encode (h : FarDestsKept ops) (hi : i < 2 ^ 32) (c : Byte) :
    vmStepV2 (encodeOpasmV2 ops) (BitVec.ofNat 32 i) c =
      (opStep ops i c).map (Action.map (BitVec.ofNat 32)) := by
  have hword := getElem?_encodeOpasmV2 ops i
  cases hop : ops[i]? with
  | none =>
    rw [vmStepV2, toNat_ofNat, Nat.mod_eq_of_lt hi, hword, opStep, hop]
    rfl
  | some op =>
    rw [hop] at hword
    refine vmStepV2_word hop hword hi (fun d hfar => ?_) c
    have hlt := hops.target_lt op (mem_of_getElem? hop) d (farDest_target hfar)
    exact (getElem?_abuf hops hlt _).mpr (h i op d hop hfar)

/-- No opcode leads out of the range of the program counter. -/
theorem opStep_next_lt {c : Byte} {a : Action ℕ VmEnd} {q : ℕ} (ha : opStep ops i c = some a)
    (hq : a.next = some q) : q < 2 ^ 32 := by
  obtain ⟨op, hop, rfl⟩ := Option.map_eq_some_iff.mp ha
  have hsucc : i + 1 < 2 ^ 32 := by
    obtain ⟨hi, -⟩ := List.getElem?_eq_some_iff.mp hop
    exact lt_of_le_of_lt hi hops.length_lt
  have htarget := hops.target_lt op (mem_of_getElem? hop)
  cases hinstr : op.instr with
  | fetch s e => simp_all [Action.next]
  | stop e =>
    simp only [hinstr] at hq
    split at hq <;> simp_all [Action.next]
  | branch dest kind rel =>
    have hdest := htarget dest (by rw [hinstr, VmOpInstr.target])
    simp only [hinstr, Action.next, Option.some.injEq] at hq
    rw [← hq]
    split
    · exact hdest
    · exact hsucc

end Program

/-- **The second version of the bytecode** does what the opcodes do exactly if the number of every
far branch, cut to 16 bits, is that of one that leads to the same place. -/
theorem encodeOpasmV2_iff (ops : List DfavmVmOp) (hops : FitsWord ops) :
    FollowsOps (encodeOpasmV2 ops) ops ↔ FarDestsKept ops := by
  refine ⟨fun h => (recovers_iff hops).mp h.recovers, fun h => ⟨fun fuel bufs => ?_, ?_⟩⟩
  · exact foldlM_feed_map (I := (· < 2 ^ 32)) (fun i hi => vmStepV2_encode hops h hi)
      (fun i _ c a q => opStep_next_lt hops) fuel 0 bufs (s := ⟨0, none, .fail⟩)
      (Nat.two_pow_pos 32)
  · exact (recovers_iff hops).mpr h

/-- A branch that is always taken. -/
def branchTo (dest : ℕ) : DfavmVmOp := ⟨0, .always, .branch dest .none 0, 0, 0⟩

/-- The number of a far branch is its place in the list of them. -/
theorem getElem?_farDests (hop : ops[i]? = some op) (hd : farDest (k + i) op = some d) :
    (farDests k ops)[(farDests k (ops.take i)).length]? = some d := by
  induction ops generalizing k i with
  | nil => cases hop
  | cons op' ops ih =>
    cases i with
    | zero =>
      cases hop
      rw [add_zero] at hd
      rw [take_zero, farDests, farDests, hd]
      rfl
    | succ i =>
      rw [add_comm i 1, ← add_assoc] at hd
      rw [take_succ_cons, farDests, farDests, length_append,
        getElem?_append_right (Nat.le_add_right _ _), Nat.add_sub_cancel_left]
      exact ih hop hd

/-- A program of at most `2 ^ 16` opcodes has numbers for all of its far branches. -/
theorem farDestsKept_of_length_le (h : ops.length ≤ 2 ^ 16) : FarDestsKept ops := by
  have hle : ∀ k (ops : List DfavmVmOp), (farDests k ops).length ≤ ops.length := by
    intro k ops
    induction ops generalizing k with
    | nil => exact le_rfl
    | cons op ops ih =>
      have hop : (farDest k op).toList.length ≤ 1 := by cases farDest k op <;> simp
      have := ih (k + 1)
      simp only [farDests, length_append, length_cons]
      omega
  intro i op d hop hd
  have hi := (List.getElem?_eq_some_iff.mp hop).1
  have hlen := hle 0 (ops.take i)
  rw [length_take] at hlen
  rw [Nat.mod_eq_of_lt (by omega)]
  exact getElem?_farDests hop (by rwa [zero_add])

/-- The last branch back to the start of `40000` is far. -/
theorem encodeOpasmV2_iff_backward :
    FollowsOps (encodeOpasmV2 (backward 40000)) (backward 40000) ∧
      farDest 40000 ⟨0, .eq, .branch 0 .none 0, 97, 0⟩ = some 0 := by
  have hlen := length_backward 40000
  have hfits : FitsWord (backward 40000) := by
    refine ⟨by rw [hlen]; norm_num, fun op hop j hj => ?_⟩
    rw [target_backward hop hj]
    exact Nat.two_pow_pos 32
  refine ⟨(encodeOpasmV2_iff _ hfits).mpr (farDestsKept_of_length_le ?_), by decide⟩
  rw [hlen]
  norm_num

/-- A destination that is `n` opcodes away. -/
def acrossFrom (n i : ℕ) : ℕ := if i < n then i + n else i - n

/-- Branches across a circle of `2 * n` opcodes. -/
def farCircle (n : ℕ) : List DfavmVmOp := (range (2 * n)).map fun i => branchTo (acrossFrom n i)

theorem farDests_branchTo {n : ℕ} (hn : 2 ^ 15 < n) (k m : ℕ) :
    farDests k ((range' k m).map fun i => branchTo (acrossFrom n i)) =
      (range' k m).map (acrossFrom n) := by
  induction m generalizing k with
  | zero => rfl
  | succ m ih =>
    have hfar : farDest k (branchTo (acrossFrom n k)) = some (acrossFrom n k) := by
      refine if_neg ?_
      rw [acrossFrom]
      split <;> omega
    rw [List.range'_succ, map_cons, farDests, ih, hfar]
    rfl

/-- In a circle of `2 ^ 17` opcodes the last branches are led to where the first ones lead. -/
theorem not_followsOps_farCircle :
    ¬ FollowsOps (encodeOpasmV2 (farCircle (2 ^ 16))) (farCircle (2 ^ 16)) := by
  have hfits : FitsWord (farCircle (2 ^ 16)) := by
    refine ⟨by rw [farCircle]; norm_num, fun op hop j hj => ?_⟩
    obtain ⟨i, hi, rfl⟩ := mem_map.mp hop
    rw [mem_range] at hi
    rw [← Option.some.inj hj, acrossFrom]
    split <;> omega
  have hdests : ∀ m ≤ 2 * 2 ^ 16, farDests 0 ((farCircle (2 ^ 16)).take m) =
      (range m).map (acrossFrom (2 ^ 16)) := by
    intro m hm
    rw [farCircle, ← map_take, take_range, min_eq_left hm, range_eq_range',
      farDests_branchTo (by norm_num)]
  have hall := hdests _ le_rfl
  rw [take_of_length_le (by simp [farCircle])] at hall
  intro h
  -- far branch number 2 ^ 16 leads to the first opcode
  have hkept := (recovers_iff hfits).mp h.recovers (2 ^ 16) (branchTo 0) 0
    (by simp [farCircle, acrossFrom]) (by decide)
  rw [hall, hdests _ (by norm_num), length_map, length_range, getElem?_map,
    getElem?_range (by norm_num)] at hkept
  cases hkept

end Libfsm
