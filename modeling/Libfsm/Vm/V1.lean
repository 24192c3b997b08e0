import Libfsm.Vm.BranchLayout
import Libfsm.Vm.Linked
import Libfsm.Lib.Numerals

/-!
# Matching With Bytecode

The bytes that `encode_opasm_v1` writes do what the opcodes do, and so `vm_match_v1` follows the
IR, one buffer after another.

- `vmStepV1_encode`: one turn of the matching loop at the bytes of an opcode
- `vmStepV1_map`: the same for a whole program that has been laid out
- `opStep_implements`: the opcodes of `dfavm_compile_ir` walk through the states of the IR
- `fsmVmMatch_iff`: compiling an IR and feeding buffers to the bytecode
-/

namespace Libfsm

open Lib
open List hiding nil cons
open Option hiding some none
open BitVec hiding nil cons

/-! ## §1 Reading Bytes -/

section Read

variable {bytes bs rest : List (BitVec 8)} {p : ℕ}

/-- The byte `k` places after `p`. -/
theorem getElem?_at (h : bytes.drop p = bs ++ rest) {k : ℕ} (hk : k < bs.length)
    (hp : p + k < 2 ^ 32) : bytes[(BitVec.ofNat 32 (p + k)).toNat]? = bs[k]? := by
  rw [toNat_ofNat, Nat.mod_eq_of_lt hp, ← getElem?_drop, h, getElem?_append_left hk]

theorem ofNat_add_one (p : ℕ) : BitVec.ofNat 32 p + 1 = BitVec.ofNat 32 (p + 1) :=
  (ofNat_add p 1).symm

/-- The parts of the first byte of an opcode. -/
theorem headByte_bits (cmp : VmCmp) {instr rest : BitVec 8} (hi : instr ∈ [0, 1, 2])
    (hr : rest ∈ [0, 1, 2]) : (((cmp.bits <<< 5) ||| (instr <<< 3) ||| rest) >>> 3) &&& 3 = instr ∧
      ((cmp.bits <<< 5) ||| (instr <<< 3) ||| rest) >>> 5 = cmp.bits ∧
      ((cmp.bits <<< 5) ||| (instr <<< 3) ||| rest) &&& 3 = rest := by
  simp only [mem_cons, not_mem_nil, or_false] at hi hr
  rcases hi with rfl | rfl | rfl <;> rcases hr with rfl | rfl | rfl <;> cases cmp <;> decide

theorem endOf_bits (cmp : VmCmp) {instr : BitVec 8} (hi : instr ∈ [0, 1, 2]) (e : VmEnd) :
    endOf ((cmp.bits <<< 5) ||| (instr <<< 3) ||| e.bits) = e := by
  simp only [mem_cons, not_mem_nil, or_false] at hi
  rcases hi with rfl | rfl | rfl <;> cases cmp <;> cases e <;> decide

theorem VmEnd.bits_mem (e : VmEnd) : e.bits ∈ [0, 1, 2] := by
  cases e <;> decide

/-- The comparison of the bytecode is that of the opcode. -/
theorem cmpResult_bits {cmp : VmCmp} (h : cmp ≠ .always) (c arg : Byte) :
    cmpResult cmp.bits c (BitVec.ofNat 8 arg.val) = cmp.holds c arg := by
  have harg : (BitVec.ofNat 8 arg.val).toNat = arg.val := by
    exact Nat.mod_eq_of_lt arg.isLt
  unfold cmpResult
  rw [harg]
  cases cmp with
  | always => exact absurd rfl h
  | eq => exact decide_eq_decide.mpr Fin.ext_iff.symm
  | ne => exact decide_eq_decide.mpr (not_congr Fin.ext_iff.symm)
  | _ => rfl

/-- The condition of an opcode, and the place after it. -/
theorem readCond_head {op : DfavmVmOp} {instr r : BitVec 8}
    (h : bytes.drop p = encodeHeadV1 op instr r ++ rest) (hp : p + 1 < 2 ^ 32) (c : Byte) :
    readCond bytes (BitVec.ofNat 32 p) c op.cmp.bits =
      some (op.cmp.holds c op.cmpArg, BitVec.ofNat 32 (p + op.headSize)) := by
  unfold readCond DfavmVmOp.headSize
  by_cases hcmp : op.cmp = .always
  · rw [hcmp, if_pos rfl, if_pos (show VmCmp.always.bits = 0 from rfl), ofNat_add_one,
      VmCmp.holds_always]
  · have hbits : op.cmp.bits ≠ 0 := by
      cases hc : op.cmp with
      | always => exact absurd hc hcmp
      | _ => decide
    have hlen : 1 < (encodeHeadV1 op instr r).length := by simp [encodeHeadV1, hcmp]
    rw [if_neg hbits, ofNat_add_one, getElem?_at h hlen hp]
    simp only [encodeHeadV1, hcmp, if_false, getElem?_cons_succ, getElem?_cons_zero,
      map_some, cmpResult_bits hcmp, ofNat_add_one]

/-! ## §2 Distances -/

theorem toNat_packed16 (b₀ b₁ : BitVec 8) :
    (packed16 b₀ b₁).toNat = b₁.toNat * 2 ^ 8 + b₀.toNat := by
  have h₀ : (b₀.setWidth 16).toNat = b₀.toNat := by simp; omega
  rw [packed16, toNat_or_above (by omega) (by omega), h₀]

theorem packed16_extract (v : BitVec 16) :
    packed16 (v.extractLsb' 0 8) (v.extractLsb' 8 8) = v := by
  apply eq_of_toNat_eq
  rw [toNat_packed16]
  simp only [BitVec.extractLsb'_toNat, Nat.shiftRight_eq_div_pow]
  omega

theorem toNat_packed32 (b₀ b₁ b₂ b₃ : BitVec 8) : (packed32 b₀ b₁ b₂ b₃).toNat =
    b₃.toNat * 2 ^ 24 + (b₂.toNat * 2 ^ 16 + (b₁.toNat * 2 ^ 8 + b₀.toNat)) := by
  have h₀ : (b₀.setWidth 32).toNat = b₀.toNat := by simp; omega
  have h₁ := toNat_or_above (x := b₀.setWidth 32) (b := b₁) (n := 8) (by omega) (by omega)
  have h₂ := toNat_or_above (b := b₂) (n := 16) (h₁.trans_lt (by omega)) (by omega)
  rw [packed32, toNat_or_above (h₂.trans_lt (by omega)) (by omega), h₂, h₁, h₀]

theorem packed32_extract (v : BitVec 32) : packed32 (v.extractLsb' 0 8) (v.extractLsb' 8 8)
    (v.extractLsb' 16 8) (v.extractLsb' 24 8) = v := by
  apply eq_of_toNat_eq
  rw [toNat_packed32]
  simp only [BitVec.extractLsb'_toNat, Nat.shiftRight_eq_div_pow]
  omega

/-- A number that fits keeps its value and its sign. -/
theorem signExtend_ofInt {rel : ℤ} {w : ℕ} (hw : 0 < w) (hw' : w ≤ 32) (hlo : -2 ^ (w - 1) ≤ rel)
    (hhi : rel < 2 ^ (w - 1)) : (BitVec.ofInt w rel).signExtend 32 = BitVec.ofInt 32 rel := by
  apply eq_of_toInt_eq
  have hpow : (2 : ℤ) ^ (w - 1) ≤ 2 ^ 31 := pow_le_pow_right₀ (by norm_num) (by omega)
  rw [toInt_signExtend_of_le hw', toInt_ofInt_eq_self hw hlo hhi,
    toInt_ofInt_eq_self (by norm_num) (by simpa using by omega) (by simpa using by omega)]

/-- A branch leads to the place at its distance. -/
theorem takeBranch_ofInt (p d : ℕ) :
    takeBranch (BitVec.ofNat 32 p) (BitVec.ofInt 32 ((d : ℤ) - p)) = BitVec.ofNat 32 d := by
  have hadd : BitVec.ofNat 32 p + BitVec.ofInt 32 ((d : ℤ) - p) = BitVec.ofNat 32 d := by
    rw [← ofInt_natCast, ← ofInt_add, ← ofInt_natCast]
    congr 1
    omega
  unfold takeBranch
  split
  · exact hadd
  · rw [sub_neg_eq_add, hadd]

/-- The bytes of a destination, and the bits that say how many they are. -/
theorem encodeDestV1_cases {dest : VmDest} {rel : ℤ} {r : BitVec 8 × List (BitVec 8)}
    (h : encodeDestV1 dest rel = some r) : r.1 ∈ [0, 1, 2] ∧ r.2.length = 1 <<< r.1.toNat ∧
      r.2.length = dest.size := by
  cases dest with
  | none => exact absurd h (by simp [encodeDestV1])
  | _ =>
    simp only [encodeDestV1] at h
    split at h
    · cases h
      exact ⟨by simp, by simp [littleEndian], by simp [littleEndian, VmDest.size]⟩
    · exact absurd h (by simp)

/-- The distance of a branch is read back. -/
theorem readRel_encode {dest : VmDest} {rel : ℤ} {r : BitVec 8 × List (BitVec 8)}
    (henc : encodeDestV1 dest rel = some r) (h : bytes.drop p = r.2 ++ rest)
    (hp : p + r.2.length < 2 ^ 32) :
    readRel bytes r.1 (BitVec.ofNat 32 p) = some (BitVec.ofInt 32 rel) := by
  -- byte `k` after the head is byte `k` of the distance
  have hbyte : ∀ k, k < r.2.length →
      bytes[(BitVec.ofNat 32 p + BitVec.ofNat 32 k).toNat]? = r.2[k]? := by
    intro k hk
    rw [← ofNat_add]
    exact getElem?_at h hk (by omega)
  unfold readRel
  dsimp only
  cases dest with
  | none => exact absurd henc (by simp [encodeDestV1])
  | short =>
    simp only [encodeDestV1] at henc
    split at henc
    · rename_i hrel
      cases henc
      have h₀ : bytes[(BitVec.ofNat 32 p + 0).toNat]? =
          some ((BitVec.ofInt 8 rel).extractLsb' 0 8) := hbyte 0 (by simp [littleEndian])
      rw [if_pos rfl, h₀, map_some, BitVec.extractLsb'_eq_self,
        signExtend_ofInt (by norm_num) (by norm_num) hrel.1 hrel.2]
    · exact absurd henc (by simp)
  | near =>
    simp only [encodeDestV1] at henc
    split at henc
    · rename_i hrel
      cases henc
      have h₀ : bytes[(BitVec.ofNat 32 p + 0).toNat]? =
          some ((BitVec.ofInt 16 rel).extractLsb' 0 8) := hbyte 0 (by simp [littleEndian])
      have h₁ : bytes[(BitVec.ofNat 32 p + 1).toNat]? =
          some ((BitVec.ofInt 16 rel).extractLsb' 8 8) := hbyte 1 (by simp [littleEndian])
      rw [if_neg (show ¬ (1 : BitVec 8) = 0 by decide), if_pos rfl, h₀, h₁, bind_some, map_some,
        packed16_extract, signExtend_ofInt (by norm_num) (by norm_num) hrel.1 hrel.2]
    · exact absurd henc (by simp)
  | far =>
    simp only [encodeDestV1] at henc
    split at henc
    · cases henc
      have h₀ : bytes[(BitVec.ofNat 32 p + 0).toNat]? =
          some ((BitVec.ofInt 32 rel).extractLsb' 0 8) := hbyte 0 (by simp [littleEndian])
      have h₁ : bytes[(BitVec.ofNat 32 p + 1).toNat]? =
          some ((BitVec.ofInt 32 rel).extractLsb' 8 8) := hbyte 1 (by simp [littleEndian])
      have h₂ : bytes[(BitVec.ofNat 32 p + 2).toNat]? =
          some ((BitVec.ofInt 32 rel).extractLsb' 16 8) := hbyte 2 (by simp [littleEndian])
      have h₃ : bytes[(BitVec.ofNat 32 p + 3).toNat]? =
          some ((BitVec.ofInt 32 rel).extractLsb' 24 8) := hbyte 3 (by simp [littleEndian])
      rw [if_neg (show ¬ (2 : BitVec 8) = 0 by decide),
        if_neg (show ¬ (2 : BitVec 8) = 1 by decide),
        h₀, h₁, h₂, h₃, bind_some,
        bind_some, bind_some, map_some, packed32_extract]
    · exact absurd henc (by simp)

/-! ## §3 Opcodes As Bytes -/

theorem length_encodeHeadV1 (op : DfavmVmOp) (instr r : BitVec 8) :
    (encodeHeadV1 op instr r).length = op.headSize := by
  unfold encodeHeadV1 DfavmVmOp.headSize
  split <;> rfl

/-- **One turn of the loop** at the bytes of an opcode. -/
theorem vmStepV1_encode {op : DfavmVmOp} (henc : encodeOpV1 op = some bs)
    (hfetch : ∀ s e, op.instr = .fetch s e → op.cmp = .always) (h : bytes.drop p = bs ++ rest)
    (hp : p + bs.length < 2 ^ 32) (c : Byte) :
    vmStepV1 bytes (BitVec.ofNat 32 p) c = some
      (match op.instr with
      | .fetch _ e => .fetch e (BitVec.ofNat 32 (p + bs.length))
      | .stop e =>
        if op.cmp.holds c op.cmpArg then .stop e else .goto (BitVec.ofNat 32 (p + bs.length))
      | .branch _ _ rel => .goto (if op.cmp.holds c op.cmpArg then
          takeBranch (BitVec.ofNat 32 p) (BitVec.ofInt 32 rel)
        else BitVec.ofNat 32 (p + bs.length))) := by
  have hhead : ∀ {instr r : BitVec 8} {more : List (BitVec 8)},
      bs = encodeHeadV1 op instr r ++ more →
      bytes[(BitVec.ofNat 32 p).toNat]? = some ((op.cmp.bits <<< 5) ||| (instr <<< 3) ||| r) ∧
        readCond bytes (BitVec.ofNat 32 p) c op.cmp.bits =
          some (op.cmp.holds c op.cmpArg, BitVec.ofNat 32 (p + op.headSize)) := by
    rintro instr r more rfl
    have hpos : 0 < (encodeHeadV1 op instr r).length := by simp [encodeHeadV1]
    rw [length_append] at hp
    rw [List.append_assoc] at h
    exact ⟨getElem?_at (k := 0) h hpos (by omega), readCond_head h (by omega) c⟩
  unfold vmStepV1
  cases hi : op.instr with
  | fetch s e =>
    rw [encodeOpV1, hi] at henc
    cases henc
    obtain ⟨hop, -, -⟩ := headByte_bits op.cmp (show 1 ∈ [0, 1, 2] by simp) e.bits_mem
    rw [(hhead (append_nil _).symm).1, bind_some]
    rw [hop, if_pos rfl, endOf_bits op.cmp (by simp), ofNat_add_one, length_encodeHeadV1,
      DfavmVmOp.headSize, if_pos (hfetch s e hi)]
  | stop e =>
    rw [encodeOpV1, hi] at henc
    cases henc
    obtain ⟨hop, hcmp, -⟩ := headByte_bits op.cmp (show 0 ∈ [0, 1, 2] by simp) e.bits_mem
    obtain ⟨hbyte, hcond⟩ := hhead (append_nil _).symm
    rw [hbyte, bind_some]
    rw [hop, if_neg (by decide), hcmp, hcond, bind_some, length_encodeHeadV1]
    cases op.cmp.holds c op.cmpArg with
    | true => simp only [if_true, endOf_bits op.cmp (show 0 ∈ [0, 1, 2] by simp)]
    | false => simp
  | branch j dest rel =>
    rw [encodeOpV1, hi] at henc
    obtain ⟨r, hr, rfl⟩ := Option.map_eq_some_iff.mp henc
    obtain ⟨hmem, hlen, -⟩ := encodeDestV1_cases hr
    obtain ⟨hop, hcmp, hdest⟩ := headByte_bits op.cmp (show 2 ∈ [0, 1, 2] by simp) hmem
    obtain ⟨hbyte, hcond⟩ := hhead rfl
    rw [length_append, length_encodeHeadV1] at hp ⊢
    -- the bytes of the destination come after the head
    have hdrop : bytes.drop (p + op.headSize) = r.2 ++ rest := by
      rw [← drop_drop, h, List.append_assoc, ← length_encodeHeadV1 op 2 r.1, drop_left]
    rw [hbyte, bind_some]
    dsimp only
    rw [hop, if_neg (by decide), hcmp, hcond, bind_some, hdest]
    cases op.cmp.holds c op.cmpArg with
    | true =>
      rw [if_pos rfl, if_neg (by decide), if_pos rfl, readRel_encode hr hdrop (by omega), map_some]
    | false => simp [← hlen, ← ofNat_add, add_assoc]

end Read

section Program

variable {prog ops : List DfavmVmOp} {sizes : List ℕ}

/-- An opcode that has been laid out can be written, in as many bytes as were planned. -/
theorem encodeOpV1_of_relaxed {i : ℕ} {op op₀ : DfavmVmOp} (h : Relaxed prog sizes i op)
    (hop₀ : prog[i]? = some op₀) (hsame : SameOp op op₀) :
    ∃ bs, encodeOpV1 op = some bs ∧ bs.length = op.numEncodedBytes := by
  have hsize : ∀ d, (relaxation prog).size i d =
      op.headSize + if op₀.instr.target.isSome then (destKind d).size else 0 := by
    rw [hsame.headSize]
    simp [relaxation, hop₀]
  cases hi : op.instr with
  | stop e =>
    have hnone : op₀.instr.target = none := by rw [← hsame.target, hi]; rfl
    refine ⟨_, by rw [encodeOpV1, hi], ?_⟩
    rw [length_encodeHeadV1, h.size, hsize, hnone]
    rfl
  | fetch s e =>
    have hnone : op₀.instr.target = none := by rw [← hsame.target, hi]; rfl
    refine ⟨_, by rw [encodeOpV1, hi], ?_⟩
    rw [length_encodeHeadV1, h.size, hsize, hnone]
    rfl
  | branch j dest rel =>
    have hsome : op₀.instr.target = some j := by rw [← hsame.target, hi]; rfl
    obtain ⟨hrel, hdest, hlo, hhi⟩ := h.branch j dest rel hi
    -- the kind was chosen for this distance
    obtain ⟨r, hr⟩ : ∃ r, encodeDestV1 dest rel = some r := by
      rw [hdest, destKind]
      split
      · rename_i hshort
        exact ⟨_, if_pos hshort⟩
      · split
        · rename_i hnear
          exact ⟨_, if_pos hnear⟩
        · exact ⟨_, if_pos ⟨hlo, hhi⟩⟩
    have hdist : (relaxation prog).distance sizes i = rel := by
      rw [Relaxation.distance, hrel]
      simp [relaxation, hop₀, hsome]
    refine ⟨encodeHeadV1 op 2 r.1 ++ r.2, by simp [encodeOpV1, hi, hr], ?_⟩
    rw [length_append, length_encodeHeadV1, (encodeDestV1_cases hr).2.2, h.size, hsize, hdist,
      hsome, hdest]
    rfl

/-- The bytes of a program that has been laid out. -/
theorem encodeOpasmV1_spec (h : Settled prog sizes ops) : ∃ bytes,
    encodeOpasmV1 ops = some bytes ∧ bytes.length = sizes.sum ∧
    ∀ i op, ops[i]? = some op → ∃ bs rest, encodeOpV1 op = some bs ∧ sizes[i]? = some bs.length ∧
      bytes.drop (offset sizes i) = bs ++ rest := by
  obtain ⟨items, hitems, hlen, hget⟩ := exists_mapM (g := encodeOpV1) (l := ops)
    (Q := fun _ op bs => encodeOpV1 op = some bs ∧ bs.length = op.numEncodedBytes)
    fun i op hop => by
      obtain ⟨op₀, hop₀, hsame⟩ := forall₂_getElem? h.same hop
      obtain ⟨bs, hbs, hlen⟩ := encodeOpV1_of_relaxed (h.relaxed i op hop) hop₀ hsame
      exact ⟨bs, hbs, hbs, hlen⟩
  have hsizes : items.map List.length = sizes := by
    rw [← h.sizes_eq]
    apply ext_getElem (by simp [hlen])
    intro i hi hi'
    have hi₀ : i < items.length := by simpa using hi
    obtain ⟨op, hop, -, hbs⟩ := hget i _ (List.getElem?_eq_getElem hi₀)
    rw [List.getElem?_eq_getElem (hlen ▸ hi₀)] at hop
    simp only [getElem_map, Option.some.inj hop, hbs]
  refine ⟨items.flatten, by rw [encodeOpasmV1, hitems]; rfl, ?_, fun i op hop => ?_⟩
  · rw [length_flatten, hsizes]
  · obtain ⟨hi, -⟩ := List.getElem?_eq_some_iff.mp hop
    have hi₀ : i < items.length := hlen ▸ hi
    obtain ⟨op', hop', hbs, hbl⟩ := hget i _ (List.getElem?_eq_getElem hi₀)
    cases hop.symm.trans hop'
    refine ⟨items[i], (items.drop (i + 1)).flatten, hbs, ?_, ?_⟩
    · rw [← hsizes, getElem?_map, List.getElem?_eq_getElem hi₀, map_some]
    · rw [← hsizes, drop_offset, drop_eq_getElem_cons hi₀, flatten_cons]

/-- **The bytes do what the opcodes do**, with offsets in place of indexes. -/
theorem vmStepV1_map (h : Settled prog sizes ops) (hsum : sizes.sum < 2 ^ 31)
    (hfetch : ∀ op ∈ prog, ∀ s e, op.instr = .fetch s e → op.cmp = .always)
    {bytes : List (BitVec 8)} (hbytes : encodeOpasmV1 ops = some bytes) (i : ℕ) (c : Byte)
    (a : Action ℕ VmEnd) (ha : opStep prog i c = some a) :
    vmStepV1 bytes (BitVec.ofNat 32 (offset sizes i)) c =
      some (a.map fun j => BitVec.ofNat 32 (offset sizes j)) := by
  obtain ⟨op₀, hop₀, rfl⟩ := Option.map_eq_some_iff.mp ha
  have hi : i < ops.length := h.same.length_eq ▸ (List.getElem?_eq_some_iff.mp hop₀).1
  obtain ⟨op, hop⟩ : ∃ op, ops[i]? = some op := ⟨_, List.getElem?_eq_getElem hi⟩
  obtain ⟨op₀', hop₀', hsame⟩ := forall₂_getElem? h.same hop
  cases hop₀.symm.trans hop₀'
  obtain ⟨bytes', hbytes', hlen, hat⟩ := encodeOpasmV1_spec h
  cases hbytes.symm.trans hbytes'
  obtain ⟨bs, rest, henc, hsize, hdrop⟩ := hat i op hop
  have hnext : offset sizes i + bs.length = offset sizes (i + 1) := (offset_succ hsize).symm
  -- the program counter does not wrap
  have hlt : offset sizes i + bs.length < 2 ^ 32 := by
    rw [hnext]
    exact (offset_le_sum sizes _).trans_lt (hsum.trans (by norm_num))
  have hcmp : ∀ s e, op.instr = .fetch s e → op.cmp = .always := by
    intro s e hinstr
    have hnone : op₀.instr.target = none := by rw [← hsame.target, hinstr]; rfl
    rw [hsame.cmp]
    exact hfetch op₀ (mem_of_getElem? hop₀) s e ((hsame.instr hnone).symm.trans hinstr)
  rw [vmStepV1_encode henc hcmp hdrop hlt c, hnext, hsame.cmp, hsame.cmpArg]
  cases hinstr : op.instr with
  | fetch s e =>
    have hnone : op₀.instr.target = none := by rw [← hsame.target, hinstr]; rfl
    rw [← hsame.instr hnone, hinstr]
    rfl
  | stop e =>
    have hnone : op₀.instr.target = none := by rw [← hsame.target, hinstr]; rfl
    rw [← hsame.instr hnone, hinstr]
    dsimp only
    split <;> rfl
  | branch j dest rel =>
    have hsome : op₀.instr.target = some j := by rw [← hsame.target, hinstr]; rfl
    obtain ⟨hrel, -⟩ := (h.relaxed i op hop).branch j dest rel hinstr
    dsimp only
    rw [hrel, takeBranch_ofInt]
    cases hinstr₀ : op₀.instr with
    | stop => simp [VmOpInstr.target, hinstr₀] at hsome
    | fetch => simp [VmOpInstr.target, hinstr₀] at hsome
    | branch j' dest' rel' =>
      obtain rfl : j' = j := by simpa [VmOpInstr.target, hinstr₀] using hsome
      split <;> rfl

end Program

/-! ## §4 Opcodes And States -/

section Opcodes

variable {ir : Ir} {l : List DfavmOpIr}

/-- The index of the first opcode of a state. -/
def entryIndex (l : List DfavmOpIr) (d : ℕ) : ℕ := l.findIdx fun op => op.label = some d

theorem getElem?_buildVmOpArray (i : ℕ) :
    (buildVmOpArray l)[i]? = l[i]?.map (buildVmOp l) := getElem?_map

theorem opStep_buildVmOpArray {i : ℕ} {op : DfavmOpIr} (hop : l[i]? = some op) (c : Byte) :
    opStep (buildVmOpArray l) i c = some
      (match op.instr with
      | .fetch _ e => .fetch e (i + 1)
      | .stop e => if op.cmp.holds c op.cmpArg then .stop e else .goto (i + 1)
      | .branch d => .goto (if op.cmp.holds c op.cmpArg then entryIndex l d else i + 1)) := by
  rw [opStep, getElem?_buildVmOpArray, hop]
  cases h : op.instr <;> simp [buildVmOp, h, entryIndex]

theorem entryIndex_eq (h : LinkedOps ir l) {p rest : List DfavmOpIr} {op : DfavmOpIr} {d : ℕ}
    (hl : l = p ++ op :: rest) (hlabel : op.label = some d) : entryIndex l d = p.length := by
  have hnot : ∀ op' ∈ p, ¬ decide (op'.label = some d) = true := by
    intro op' hop' hlabel'
    have hnodup := h.nodup
    rw [hl, labels_append, labels_cons, hlabel] at hnodup
    refine disjoint_of_nodup_append hnodup (mem_labels.mpr ⟨op', hop', ?_⟩)
      (mem_cons_self ..)
    exact of_decide_eq_true hlabel'
  rw [entryIndex, hl, findIdx_append, if_neg, findIdx_cons]
  · simp [hlabel]
  · rw [findIdx_eq_length.mpr fun op' hop' => by simpa using hnot op' hop']
    exact lt_irrefl _

/-- The machine is at the index `j` when opcodes have led to a place. -/
def Arrival.IsAt (l : List DfavmOpIr) (c : Byte) (j : ℕ) : Arrival → Prop
  | enter d => d ∈ labels l ∧ j = entryIndex l d
  | stop e => opStep (buildVmOpArray l) j c = some (.stop e)

/-- Opcodes lead where `react` says, in at most as many jumps as there are opcodes. -/
theorem jumps_of_react (h : LinkedOps ir l) (s : List DfavmOpIr) (c : Byte) :
    ∀ {p : List DfavmOpIr} {o : Arrival}, l = p ++ s → react s c = some o →
      ∃ n ≤ s.length, ∃ j, Jumps (opStep (buildVmOpArray l)) c n p.length j ∧ o.IsAt l c j := by
  induction s with
  | nil => exact fun _ hreact => absurd hreact (by simp [react])
  | cons op rest ih =>
    intro p o hl hreact
    have hop : l[p.length]? = some op := by rw [hl]; simp
    have hmem : op ∈ l := mem_of_getElem? hop
    have hstep := opStep_buildVmOpArray hop c
    cases hlabel : op.label with
    | some d =>
      rw [react_label hlabel] at hreact
      cases hreact
      exact ⟨0, Nat.zero_le _, p.length, .refl _, mem_labels.mpr ⟨op, hmem, hlabel⟩,
        (entryIndex_eq h hl hlabel).symm⟩
    | none =>
      -- on to the next opcode
      have hrest : react rest c = some o → opStep (buildVmOpArray l) p.length c =
          some (.goto (p.length + 1)) → ∃ n ≤ (op :: rest).length, ∃ j,
            Jumps (opStep (buildVmOpArray l)) c n p.length j ∧ o.IsAt l c j := by
        intro hreact' hgoto
        obtain ⟨n, hn, j, hjumps, hj⟩ := ih (p := p ++ [op]) (by simpa using hl) hreact'
        rw [length_append, length_singleton] at hjumps
        exact ⟨n + 1, Nat.succ_le_succ hn, j, .head hgoto hjumps, hj⟩
      simp only [react, hlabel] at hreact
      cases hi : op.instr with
      | fetch s e =>
        rw [hi] at hreact
        exact absurd hreact (by simp)
      | stop e =>
        rw [hi] at hreact hstep
        dsimp only at hreact hstep
        split at hreact
        · rename_i hcond
          cases hreact
          rw [if_pos hcond] at hstep
          exact ⟨0, Nat.zero_le _, p.length, .refl _, hstep⟩
        · rename_i hcond
          rw [if_neg hcond] at hstep
          exact hrest hreact hstep
      | branch d =>
        rw [hi] at hreact hstep
        dsimp only at hreact hstep
        split at hreact
        · rename_i hcond
          cases hreact
          rw [if_pos hcond] at hstep
          refine ⟨1, Nat.succ_le_succ (Nat.zero_le _), _, .head hstep (.refl _), ?_, rfl⟩
          exact h.targets d (mem_branchDests.mpr ⟨op, hmem, by rw [DfavmOpIr.branchDest, hi]⟩)
        · rename_i hcond
          rw [if_neg hcond] at hstep
          exact hrest hreact hstep

theorem BlocksOk.of_append {p s : List DfavmOpIr} (h : BlocksOk ir (p ++ s)) : BlocksOk ir s := by
  induction p with
  | nil => exact h
  | cons op p ih => exact ih h.2

/-- **The opcodes walk through the states of the IR.** -/
theorem opStep_implements (h : LinkedOps ir l) :
    Implements (opStep (buildVmOpArray l)) l.length ir.next ir.isend (· ∈ labels l) ir.Sink
      (entryIndex l) .succ .fail where
  sink_accept := Ir.Sink.isend
  sink_step := Ir.Sink.next
  at_sink {d} hd hsink c := by
    obtain ⟨op, hop, hlabel⟩ := mem_labels.mp hd
    obtain ⟨p, rest, hl⟩ := append_of_mem hop
    have hget : l[p.length]? = some op := by rw [hl]; simp
    have hhead := h.heads op hop d hlabel
    rw [entryIndex_eq h hl hlabel, opStep_buildVmOpArray hget, hhead.sink hsink, hhead.cmp]
    rfl
  at_state {d} hd hsink := by
    obtain ⟨op, hop, hlabel⟩ := mem_labels.mp hd
    obtain ⟨p, rest, hl⟩ := append_of_mem hop
    have hget : l[p.length]? = some op := by rw [hl]; simp
    have hhead := h.heads op hop d hlabel
    refine ⟨p.length + 1, fun c => ?_, fun c => ?_⟩
    · rw [entryIndex_eq h hl hlabel, opStep_buildVmOpArray hget, hhead.state hsink]
    · have hblock : BlocksOk ir (op :: rest) := (hl ▸ h.blocks).of_append
      have hfollows := hblock.1 d hlabel hsink c
      have hl' : l = (p ++ [op]) ++ rest := by simpa using hl
      have hlen : (p ++ [op]).length = p.length + 1 := by simp
      have hle : rest.length ≤ l.length := by
        rw [hl', length_append]
        exact Nat.le_add_left _ _
      -- the chain leads to the next state, or stops early in a sink
      rcases hfollows with hreact | ⟨t, ht, hsink', hreact⟩
      · obtain ⟨n, hn, j, hjumps, hj⟩ := jumps_of_react h rest c hl' hreact
        rw [hlen] at hjumps
        refine ⟨n, hn.trans hle, j, hjumps, ?_⟩
        cases hnext : ir.next d c with
        | none =>
          rw [hnext] at hj
          exact hj
        | some t =>
          rw [hnext] at hj
          exact Or.inl hj
      · obtain ⟨n, hn, j, hjumps, hj⟩ := jumps_of_react h rest c hl' hreact
        rw [hlen] at hjumps
        refine ⟨n, hn.trans hle, j, hjumps, ?_⟩
        rw [ht]
        exact Or.inr ⟨hsink', hj⟩

end Opcodes

/-! ## §5 Compiling And Matching -/

/-- An IR as bytecode: `dfavm_compile_ir` and `dfavm_compile_vm`. -/
def vmCompileV1 (ir : Ir) (optim : Bool) : Option (List (BitVec 8)) :=
  (dfavmCompileIr ir optim).bind dfavmCompileVmV1

/-- A match that is fed one buffer after another. -/
def vmMatchBuffers (ops : List (BitVec 8)) (bufs : List (List Byte)) : Option VmState :=
  bufs.foldlM (vmMatchV1 ops) vmStateInit

section Compile

variable {ir : Ir} {l : List DfavmOpIr}

theorem targetsIn_buildVmOpArray (h : ∀ d ∈ branchDests l, d ∈ labels l) :
    TargetsIn (buildVmOpArray l) := by
  intro op hop j hj
  obtain ⟨op', hop', rfl⟩ := List.mem_map.mp hop
  rw [buildVmOpArray, length_map]
  cases hi : op'.instr with
  | branch d =>
    simp only [buildVmOp, hi, VmOpInstr.target, Option.some.injEq] at hj
    obtain ⟨op'', hop'', hlabel⟩ := mem_labels.mp
      (h d (mem_branchDests.mpr ⟨op', hop', by rw [DfavmOpIr.branchDest, hi]⟩))
    rw [← hj]
    exact findIdx_lt_length_of_exists ⟨op'', hop'', decide_eq_true hlabel⟩
  | _ => simp [buildVmOp, hi, VmOpInstr.target] at hj

theorem fetch_cmp_buildVmOpArray (h : ∀ op ∈ l, op.isFetch = true → op.cmp = .always) :
    ∀ op ∈ buildVmOpArray l, ∀ s e, op.instr = .fetch s e → op.cmp = .always := by
  intro op hop s e hinstr
  obtain ⟨op', hop', rfl⟩ := List.mem_map.mp hop
  apply h op' hop'
  cases hi : op'.instr with
  | fetch => simp [DfavmOpIr.isFetch, hi]
  | _ => simp [buildVmOp, hi] at hinstr

theorem LinkedOps.fetch_cmp (h : LinkedOps ir l) :
    ∀ op ∈ l, op.isFetch = true → op.cmp = .always := by
  intro op hop hfetch
  cases hlabel : op.label with
  | none => exact absurd (h.bodies op hop hlabel) (by simp [hfetch])
  | some d => exact (h.heads op hop d hlabel).cmp

/-- Opcodes as bytecode: the bytes do what the opcodes do. -/
theorem dfavmCompileVmV1_spec (htargets : ∀ d ∈ branchDests l, d ∈ labels l)
    (hfetch : ∀ op ∈ l, op.isFetch = true → op.cmp = .always)
    (hbytes : widestBytes (buildVmOpArray l) < 2 ^ 31) : ∃ ops sizes,
      dfavmCompileVmV1 l = some ops ∧ l.length ≤ ops.length ∧
      ∀ i c a, opStep (buildVmOpArray l) i c = some a →
        vmStepV1 ops (BitVec.ofNat 32 (offset sizes i)) c =
          some (a.map fun j => BitVec.ofNat 32 (offset sizes j)) := by
  obtain ⟨sizes, prog, hassign, hsettled, hsum⟩ :=
    assignRelDests_spec (targetsIn_buildVmOpArray htargets) hbytes
  obtain ⟨ops, henc, hlen, -⟩ := encodeOpasmV1_spec hsettled
  refine ⟨ops, sizes, by rw [dfavmCompileVmV1, hassign, bind_some, henc], ?_,
    vmStepV1_map hsettled hsum (fetch_cmp_buildVmOpArray hfetch) henc⟩
  -- every opcode has at least one byte
  have hone : ∀ n ∈ sizes, 1 ≤ n := by
    intro n hn
    rw [← hsettled.sizes_eq] at hn
    obtain ⟨op, hop, rfl⟩ := List.mem_map.mp hn
    obtain ⟨i, hi⟩ := mem_iff_getElem?.mp hop
    obtain ⟨op₀, hop₀, -⟩ := forall₂_getElem? hsettled.same hi
    rw [(hsettled.relaxed i op hi).size]
    simp only [relaxation, hop₀, map_some, getD_some]
    have : 1 ≤ op₀.headSize := by
      unfold DfavmVmOp.headSize
      split <;> decide
    omega
  rw [hlen]
  calc l.length = sizes.length := by
        rw [← hsettled.sizes_eq, length_map, hsettled.same.length_eq, buildVmOpArray, length_map]
    _ ≤ sizes.sum := length_le_sum_of_one_le sizes hone

/-- The program for an IR without states fails at once. -/
theorem vmMatchBuffers_of_nil (hnil : ir.states = []) (optim : Bool) : ∃ ops,
    vmCompileV1 ir optim = some ops ∧ ∀ bufs, ∃ st, vmMatchBuffers ops bufs = some st ∧
      vmEnd st = .fail := by
  have hcompile : vmCompileV1 ir optim = some [0] := by
    rw [vmCompileV1, dfavmCompileIr, if_pos hnil]
    rfl
  refine ⟨[0], hcompile, fun bufs => ?_⟩
  cases bufs with
  | nil => exact ⟨vmStateInit, rfl, rfl⟩
  | cons w bufs =>
    -- the first byte stops the machine
    refine ⟨⟨0, some .fail, .fail⟩, ?_, rfl⟩
    exact foldlM_feed_stopped _ _ _ rfl bufs

end Compile

/-- **Bytecode matching.**  An IR that decodes to a transition function is compiled to a program
that matches exactly the words the IR accepts, however they are cut into buffers, exactly if no
state is complete and, where no buffer at all is fed, the start state is no end state. -/
theorem vmMatchBuffers_iff (ir : Ir) (hir : ir.Valid) (optim : Bool)
    (hbytes : ∀ l, dfavmCompileIr ir optim = some l → widestBytes (buildVmOpArray l) < 2 ^ 31)
    (bufs : List (List Byte)) :
    (∃ ops st, vmCompileV1 ir optim = some ops ∧ vmMatchBuffers ops bufs = some st ∧
      (vmEnd st = .succ ↔ ir.accepts bufs.flatten = true)) ↔
    (∀ st ∈ ir.states, ∀ groups, st.strategy ≠ .irComplete groups) ∧
      (bufs = [] → ir.isend ir.start = false) := by
  rw [← dfavmCompileIr_isSome_iff optim]
  constructor
  · rintro ⟨ops, st, hcompile, hmatch, hiff⟩
    obtain ⟨l, hl, -⟩ := Option.bind_eq_some_iff.mp hcompile
    refine ⟨by rw [hl]; rfl, ?_⟩
    rintro rfl
    -- without a buffer the match fails
    cases hmatch
    rw [← Bool.not_eq_true]
    exact fun hend => absurd (hiff.mpr hend) (by decide)
  · rintro ⟨hsome, hstart⟩
    obtain ⟨l, hl⟩ := Option.isSome_iff_exists.mp hsome
    by_cases hnil : ir.states = []
    · obtain ⟨ops, hops, hfail⟩ := vmMatchBuffers_of_nil hnil optim
      obtain ⟨st, hst, hend⟩ := hfail bufs
      refine ⟨ops, st, hops, hst, ?_⟩
      have hno : ∀ d, ir.isend d = false := fun d => by simp [Ir.isend, hnil]
      rw [hend, Ir.accepts]
      cases walk ir.next ir.start bufs.flatten <;> simp [hno]
    have hlinked := dfavmCompileIr_linked hir hnil hl
    obtain ⟨ops, sizes, hops, hlen, hmap⟩ :=
      dfavmCompileVmV1_spec hlinked.targets hlinked.fetch_cmp (hbytes l hl)
    have hcompile : vmCompileV1 ir optim = some ops := by
      rw [vmCompileV1, hl, bind_some, hops]
    by_cases hbufs : bufs = []
    · subst hbufs
      refine ⟨ops, vmStateInit, hcompile, rfl, ?_⟩
      rw [show ir.accepts ([] : List (List Byte)).flatten = ir.isend ir.start from rfl, hstart rfl]
      decide
    · have himpl := (opStep_implements hlinked).map hmap
      obtain ⟨op, rest, hl₀, hlabel⟩ := hlinked.start
      have hknown : ir.start ∈ labels l := mem_labels.mpr ⟨op, by rw [hl₀]; simp, hlabel⟩
      have hentry : entryIndex l ir.start = 0 := entryIndex_eq hlinked (p := []) hl₀ hlabel
      obtain ⟨st, hst, hiff⟩ := himpl.feed_iff (by decide) (fun w =>
        Nat.mul_le_mul_left _ (Nat.succ_le_succ hlen)) 0 hknown .fail hbufs
      refine ⟨ops, st, hcompile, ?_, hiff⟩
      rw [Function.comp_apply, hentry] at hst
      exact hst

/-- One edge on `a` from the start state to an end state without edges, as `make_ir` writes it. -/
def oneEdgeIr : Ir where
  start := 0
  states := [⟨false, [], [], .irPartial [⟨1, [⟨97, 97⟩]⟩]⟩, ⟨true, [], [], .irNone⟩]

/-- The word `a` after an empty buffer. -/
theorem vmMatchBuffers_iff_oneEdge : ∃ ops st, vmCompileV1 oneEdgeIr false = some ops ∧
    vmMatchBuffers ops [[], [97]] = some st ∧
      (vmEnd st = .succ ↔ oneEdgeIr.accepts ([[], [97]] : List (List Byte)).flatten = true) := by
  have hdecode : ∀ st ∈ oneEdgeIr.states, ∀ c : Byte, ∀ t ∈ st.strategy.decode c, t < 2 := by
    decide +kernel
  have hvalid : oneEdgeIr.Valid := ⟨by decide, hdecode, by decide +kernel, by decide⟩
  have hbytes : (dfavmCompileIr oneEdgeIr false).all
      (fun l => widestBytes (buildVmOpArray l) < 2 ^ 31) = true := by decide +kernel
  refine (vmMatchBuffers_iff oneEdgeIr hvalid false (fun l hl => ?_) _).mpr
    ⟨by simp [oneEdgeIr], by decide⟩
  rw [hl] at hbytes
  exact of_decide_eq_true hbytes

/-- A complete state. -/
def completeIr : Ir where
  start := 0
  states := [⟨true, [], [], .irComplete [⟨0, [⟨0, 255⟩]⟩]⟩]

/-- An end state without edges. -/
def emptyWordIr : Ir where
  start := 0
  states := [⟨true, [], [], .irNone⟩]

/-- A complete state stops the compiler at an assertion, and without a buffer the match of the
empty word fails. -/
theorem vmMatchBuffers_complete_and_unfed :
    completeIr.Valid ∧ (∀ w, completeIr.accepts w = true) ∧ vmCompileV1 completeIr false = none ∧
    emptyWordIr.Valid ∧ emptyWordIr.accepts ([] : List (List Byte)).flatten = true ∧
      ∃ ops, vmCompileV1 emptyWordIr false = some ops ∧
        (vmMatchBuffers ops []).map vmEnd = some .fail := by
  have hcomplete : ∀ c : Byte, completeIr.next 0 c = some 0 := by decide +kernel
  have hdecode : ∀ st ∈ completeIr.states, ∀ c : Byte, ∀ t ∈ st.strategy.decode c, t < 1 := by
    decide +kernel
  have hdecode' : ∀ st ∈ emptyWordIr.states, ∀ c : Byte, ∀ t ∈ st.strategy.decode c, t < 1 := by
    decide +kernel
  refine ⟨⟨by decide, hdecode, by decide, by decide⟩, fun w => ?_, rfl,
    ⟨by decide, hdecode', by decide, by decide⟩, rfl, _, rfl, rfl⟩
  have hwalk : walk completeIr.next 0 w = some 0 := by
    induction w with
    | nil => rfl
    | cons c w ih => rw [walk_cons, hcomplete, bind_some, ih]
  rw [Ir.accepts, show completeIr.start = 0 from rfl, hwalk]
  rfl

end Libfsm
