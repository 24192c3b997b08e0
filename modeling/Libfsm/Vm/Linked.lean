import Libfsm.Vm.OpIrSound

/-!
# The List Of Opcodes

The passes of `dfavm_compile_ir` over the opcodes of all states: counting the branches to each
state, putting the states in order, and taking out branches.

- `LinkedOps`: the opcodes follow the IR, and the counts of incoming branches are exact
- `orderBasicBlocks_linked`: it holds when the states have been put in order
- `eliminateAt_linked`, `eliminateUnnecessaryBranches_linked`: one step of the optimisation, and
  all of it
- `dfavmCompileIr_linked`: what the translation returns
-/

namespace Libfsm

open Lib
open List hiding nil cons length head Chain next replace
open Option hiding some none

variable {ir : Ir}

variable {l p s s' : List DfavmOpIr} {d : ℕ} {trace : List ℕ}

/-! ## §1 The Invariant -/

/-- The opcodes lead where the transition `t` does: to its state, or to a stop in place of an end
state that is never left. -/
def Follows (ir : Ir) (o : Option Arrival) (t : Option ℕ) : Prop :=
  o = some (arrivalOf t) ∨ ∃ d, t = some d ∧ ir.Sink d ∧ o = some (.stop .succ)

/-- The opcodes after the first one of each state follow the transitions of the state. -/
def BlocksOk (ir : Ir) : List DfavmOpIr → Prop
  | [] => True
  | op :: rest =>
    (∀ d, op.label = some d → ¬ ir.Sink d → ∀ c, Follows ir (react rest c) (ir.next d c)) ∧
      BlocksOk ir rest

/-- The states to which the branches of a list lead. -/
def branchDests (l : List DfavmOpIr) : List ℕ := l.filterMap DfavmOpIr.branchDest

/-- The states whose first opcode is in a list. -/
def labels (l : List DfavmOpIr) : List ℕ := l.filterMap DfavmOpIr.label

@[simp] theorem branchDests_append (l l' : List DfavmOpIr) :
    branchDests (l ++ l') = branchDests l ++ branchDests l' := filterMap_append

@[simp] theorem labels_append (l l' : List DfavmOpIr) :
    labels (l ++ l') = labels l ++ labels l' := filterMap_append

theorem branchDests_cons (op : DfavmOpIr) (l : List DfavmOpIr) :
    branchDests (op :: l) = op.branchDest.toList ++ branchDests l := by
  unfold branchDests
  cases h : op.branchDest <;> simp [h]

theorem labels_cons (op : DfavmOpIr) (l : List DfavmOpIr) :
    labels (op :: l) = op.label.toList ++ labels l := by
  unfold labels
  cases h : op.label <;> simp [h]

theorem mem_labels : d ∈ labels l ↔ ∃ op ∈ l, op.label = some d :=
  mem_filterMap

theorem mem_branchDests : d ∈ branchDests l ↔ ∃ op ∈ l, op.branchDest = some d := mem_filterMap

/-- **The invariant of a list of opcodes.** -/
structure LinkedOps (ir : Ir) (l : List DfavmOpIr) : Prop where
  nodup : (labels l).Nodup
  heads : ∀ op ∈ l, ∀ d, op.label = some d → op.IsHead ir d
  bodies : ∀ op ∈ l, op.label = none → op.isFetch = false
  /-- The counts of incoming branches are exact -/
  incoming : ∀ op ∈ l, op.numIncoming = op.label.elim 0 fun d => (branchDests l).count d
  targets : ∀ d ∈ branchDests l, d ∈ labels l
  blocks : BlocksOk ir l
  start : ∃ op rest, l = op :: rest ∧ op.label = some ir.start

/-! ## §2 Counting And Ordering -/

theorem iterate_addIncoming (k : ℕ) (op : DfavmOpIr) (chain : List DfavmOpIr) :
    addIncoming^[k] (op :: chain) = { op with numIncoming := op.numIncoming + k } :: chain := by
  induction k with
  | zero => rfl
  | succ k ih => rw [Function.iterate_succ_apply', ih, addIncoming, add_assoc]

theorem getElem?_foldl_modify (dests : List ℕ) (ops : List (List DfavmOpIr)) (i : ℕ) :
    (dests.foldl (fun ops dest => ops.modify dest addIncoming) ops)[i]? =
      ops[i]?.map addIncoming^[dests.count i] := by
  induction dests generalizing ops with
  | nil => simp
  | cons d dests ih =>
    rw [foldl_cons, ih, getElem?_modify, Option.map_eq_map, Option.map_map]
    congr 1
    funext chain
    by_cases hd : d = i
    · simp [hd, Function.iterate_succ_apply]
    · simp [hd]

/-- The chains of all states, with exact counts. -/
structure Chains (ir : Ir) (ops : List (List DfavmOpIr)) : Prop where
  length : ops.length = ir.states.length
  chain : ∀ d < ir.states.length, ∃ head body, ops[d]? = some (head :: body) ∧
    head.numIncoming = (branchDests ops.flatten).count d ∧ Chain ir d head body

theorem branchDests_addIncoming (chain : List DfavmOpIr) :
    branchDests (addIncoming chain) = branchDests chain := by
  cases chain <;> rfl

theorem branchDests_flatten (ops : List (List DfavmOpIr)) :
    branchDests ops.flatten = (ops.map branchDests).flatten := filterMap_flatten

theorem branchDests_fixupDests (ops : List (List DfavmOpIr)) :
    branchDests (fixupDests ops).flatten = branchDests ops.flatten := by
  have hiter : ∀ k, branchDests ∘ addIncoming^[k] = branchDests := by
    intro k
    induction k with
    | zero => rfl
    | succ k ih =>
      rw [Function.iterate_succ, ← Function.comp_assoc, ih]
      exact funext branchDests_addIncoming
  rw [branchDests_flatten, branchDests_flatten]
  congr 1
  apply ext_getElem?
  intro i
  rw [getElem?_map, fixupDests, getElem?_foldl_modify, Option.map_map, hiter, getElem?_map]

theorem length_fixupDests (ops : List (List DfavmOpIr)) : (fixupDests ops).length = ops.length := by
  exact foldl_eq_of_step List.length fun _ _ _ => length_modify ..

/-- `fixup_dests` counts the branches to each state. -/
theorem fixupDests_chains {ops : List (List DfavmOpIr)} (hlen : ops.length = ir.states.length)
    (h : ∀ d < ir.states.length, ∃ head body, ops[d]? = some (head :: body) ∧
      head.numIncoming = 0 ∧ Chain ir d head body) : Chains ir (fixupDests ops) where
  length := (length_fixupDests ops).trans hlen
  chain d hd := by
    obtain ⟨head, body, hget, hin, hhead, hbody⟩ := h d hd
    refine ⟨{ head with numIncoming := (branchDests ops.flatten).count d }, body, ?_, ?_,
      ⟨hhead.label, hhead.cmp, hhead.sink, hhead.state⟩, hbody⟩
    · rw [fixupDests, getElem?_foldl_modify, hget, map_some, iterate_addIncoming, hin, zero_add]
      rfl
    · rw [branchDests_fixupDests]

namespace Chains

variable {ops : List (List DfavmOpIr)}

/-- The chain of a state, as `order_basic_blocks` reads it. -/
theorem getD_eq (h : Chains ir ops) (hd : d < ir.states.length) :
    ∃ head body, ops.getD d [] = head :: body ∧
      head.numIncoming = (branchDests ops.flatten).count d ∧ Chain ir d head body := by
  obtain ⟨head, body, hget, hrest⟩ := h.chain d hd
  exact ⟨head, body, by rw [getD_eq_getElem?_getD, hget, getD_some], hrest⟩

end Chains

theorem DfavmOpIr.IsHead.branchDest {op : DfavmOpIr} (h : op.IsHead ir d) :
    op.branchDest = none := by
  unfold DfavmOpIr.branchDest
  by_cases hs : ir.Sink d
  · rw [h.sink hs]
  · rw [h.state hs]

theorem Chain.labels_eq {head : DfavmOpIr} {body : List DfavmOpIr} (h : Chain ir d head body) :
    labels (head :: body) = [d] := by
  have hbody : labels body = [] := by
    apply filterMap_eq_nil_iff.mpr
    exact fun op hop => (h.2.1 op hop).label
  rw [labels_cons, h.1.label, hbody]
  rfl

theorem Chain.branchDests_lt {head : DfavmOpIr} {body : List DfavmOpIr} (h : Chain ir d head body) :
    ∀ t ∈ branchDests (head :: body), t < ir.states.length := by
  intro t ht
  rw [branchDests_cons, h.1.branchDest] at ht
  obtain ⟨op, hop, hdest⟩ := mem_branchDests.mp ht
  exact (h.2.1 op hop).dest t hdest

section Order

variable {ops : List (List DfavmOpIr)}

theorem nextBlock_eq_some (h : Chains ir ops) {st st' : ℕ} (hst : st < ir.states.length)
    (hnext : nextBlock ops trace st = some st') : st' ∉ trace ∧ st' < ir.states.length := by
  rcases Option.or_eq_some_iff.mp hnext with hbranch | ⟨-, hfirst⟩
  · obtain ⟨head, body, hget, -, hchain⟩ := h.getD_eq hst
    refine ⟨by simpa using find?_some hbranch, hchain.branchDests_lt st' ?_⟩
    rw [hget] at hbranch
    exact mem_reverse.mp (mem_of_find?_eq_some hbranch)
  · refine ⟨by simpa using find?_some hfirst, ?_⟩
    rw [← h.length]
    exact mem_range.mp (mem_of_find?_eq_some hfirst)

theorem nextBlock_eq_none (h : Chains ir ops) {st : ℕ} (hnext : nextBlock ops trace st = none) :
    ∀ d < ir.states.length, d ∈ trace := by
  intro d hd
  have hfirst := find?_eq_none.mp (Option.or_eq_none_iff.mp hnext).2 d
    (mem_range.mpr (h.length.symm ▸ hd))
  simpa using hfirst

/-- The loop of `order_basic_blocks` adds every state once. -/
theorem traceFrom_spec (h : Chains ir ops) (fuel : ℕ) : ∀ (trace : List ℕ) (st : ℕ),
    (trace ++ [st]).Nodup → (∀ d ∈ trace ++ [st], d < ir.states.length) →
    ir.states.length ≤ fuel + trace.length →
    (traceFrom ops fuel trace st).Perm (range ir.states.length) ∧
      trace ++ [st] <+: traceFrom ops fuel trace st := by
  induction fuel with
  | zero =>
    -- a trace cannot be longer than the number of states
    intro trace st hnodup hlt hfuel
    have hsub : (trace ++ [st]).toFinset ⊆ Finset.range ir.states.length := by
      intro d hd
      exact Finset.mem_range.mpr (hlt d (List.mem_toFinset.mp hd))
    have hcard := Finset.card_le_card hsub
    rw [toFinset_card_of_nodup hnodup, Finset.card_range, length_append, length_singleton] at hcard
    omega
  | succ fuel ih =>
    intro trace st hnodup hlt hfuel
    rw [traceFrom]
    split
    · rename_i hnone
      refine ⟨(perm_ext_iff_of_nodup hnodup nodup_range).mpr fun d => ?_, prefix_rfl⟩
      rw [mem_range]
      exact ⟨hlt d, nextBlock_eq_none h hnone d⟩
    · rename_i st' hsome
      obtain ⟨hnew, hlt'⟩ := nextBlock_eq_some h (hlt st (by simp)) hsome
      have hnodup' : (trace ++ [st] ++ [st']).Nodup :=
        nodup_append_comm.mp (nodup_cons.mpr ⟨hnew, hnodup⟩)
      obtain ⟨hperm, hpre⟩ := ih (trace ++ [st]) st' hnodup'
        (fun d hd => (mem_append.mp hd).elim (hlt d) fun hd =>
          (mem_singleton.mp hd).symm ▸ hlt')
        (by rw [length_append, length_singleton]; omega)
      exact ⟨hperm, (prefix_append _ _).trans hpre⟩

theorem blocksOk_flatMap (h : Chains ir ops) (hlt : ∀ d ∈ trace, d < ir.states.length) :
    BlocksOk ir (trace.flatMap fun st => ops.getD st []) := by
  induction trace with
  | nil => trivial
  | cons d trace ih =>
    obtain ⟨head, body, hget, -, hhead, hbody, hreact⟩ := h.getD_eq (hlt d mem_cons_self)
    have ih := ih fun d hd => hlt d (mem_cons_of_mem _ hd)
    rw [flatMap_cons, hget]
    generalize (trace.flatMap fun st => ops.getD st []) = rest at ih
    refine ⟨fun t ht hsink c => ?_, ?_⟩
    · cases hhead.label.symm.trans ht
      exact .inl (hreact hsink c rest)
    · -- no opcode of the body is the first one of a state
      clear hreact hget
      induction body with
      | nil => exact ih
      | cons op body ih' =>
        refine ⟨fun t ht => ?_, ih' fun op hop => hbody op (mem_cons_of_mem _ hop)⟩
        rw [(hbody op mem_cons_self).label] at ht
        exact absurd ht (by simp)

/-- The opcodes in the order of `order_basic_blocks`. -/
theorem orderBasicBlocks_linked (h : Chains ir ops) (hstart : ir.start < ir.states.length) :
    LinkedOps ir (orderBasicBlocks ops ir.start) := by
  obtain ⟨hperm, hpre⟩ := traceFrom_spec h ops.length [] ir.start
    (nodup_singleton _) (by simpa using hstart) (by simp [h.length])
  unfold orderBasicBlocks
  generalize traceFrom ops ops.length [] ir.start = trace at hperm hpre
  have hlt : ∀ d ∈ trace, d < ir.states.length := fun d hd => mem_range.mp (hperm.mem_iff.mp hd)
  have hlabels : ∀ trace : List ℕ, (∀ d ∈ trace, d < ir.states.length) →
      labels (trace.flatMap fun st => ops.getD st []) = trace := by
    intro trace hlt
    induction trace with
    | nil => rfl
    | cons d trace ih =>
      obtain ⟨head, body, hget, -, hchain⟩ := h.getD_eq (hlt d mem_cons_self)
      rw [flatMap_cons, labels_append, hget, hchain.labels_eq,
        ih fun d hd => hlt d (mem_cons_of_mem _ hd)]
      rfl
  have hrange : (range ir.states.length).flatMap (fun st => ops.getD st []) = ops.flatten := by
    rw [flatMap_def]
    congr 1
    apply ext_getElem?
    intro i
    rw [getElem?_map]
    rcases lt_or_ge i ir.states.length with hi | hi
    · obtain ⟨head, body, hget, -⟩ := h.chain i hi
      rw [getElem?_range hi, map_some, getD_eq_getElem?_getD, hget, getD_some]
    · rw [getElem?_eq_none (by simpa using hi), getElem?_eq_none (h.length.symm ▸ hi),
        map_none]
  have hcount : (branchDests (trace.flatMap fun st => ops.getD st [])).Perm
      (branchDests ops.flatten) := by
    rw [← hrange]
    exact (hperm.flatMap_right _).filterMap _
  -- each opcode is the head of a chain or in a body
  have hmem : ∀ op ∈ trace.flatMap fun st => ops.getD st [], ∃ d head body, d ∈ trace ∧
      ops.getD d [] = head :: body ∧ head.numIncoming = (branchDests ops.flatten).count d ∧
      Chain ir d head body ∧ (op = head ∨ op ∈ body) := by
    intro op hop
    obtain ⟨d, hd, hop⟩ := mem_flatMap.mp hop
    obtain ⟨head, body, hget, hin, hchain⟩ := h.getD_eq (hlt d hd)
    exact ⟨d, head, body, hd, hget, hin, hchain, mem_cons.mp (hget ▸ hop)⟩
  refine ⟨?_, ?_, ?_, ?_, ?_, blocksOk_flatMap h hlt, ?_⟩
  · rw [hlabels trace hlt]
    exact hperm.nodup_iff.mpr nodup_range
  · intro op hop t ht
    obtain ⟨d, head, body, -, -, -, hchain, rfl | hbody⟩ := hmem op hop
    · cases hchain.1.label.symm.trans ht
      exact hchain.1
    · rw [(hchain.2.1 op hbody).label] at ht
      exact absurd ht (by simp)
  · intro op hop hnone
    obtain ⟨d, head, body, -, -, -, hchain, rfl | hbody⟩ := hmem op hop
    · exact absurd (hchain.1.label.symm.trans hnone) (by simp)
    · exact (hchain.2.1 op hbody).isFetch
  · intro op hop
    obtain ⟨d, head, body, -, -, hin, hchain, rfl | hbody⟩ := hmem op hop
    · rw [hchain.1.label, elim_some, hin, hcount.count_eq]
    · rw [(hchain.2.1 op hbody).label, elim_none, (hchain.2.1 op hbody).numIncoming]
  · intro t ht
    rw [hlabels trace hlt]
    obtain ⟨op, hop, hdest⟩ := mem_branchDests.mp ht
    obtain ⟨d, head, body, -, -, -, hchain, hop'⟩ := hmem op hop
    have hlt' := hchain.branchDests_lt t (mem_branchDests.mpr ⟨op, mem_cons.mpr hop', hdest⟩)
    exact hperm.mem_iff.mpr (mem_range.mpr hlt')
  · obtain ⟨trace', rfl⟩ := hpre
    obtain ⟨head, body, hget, -, hchain⟩ := h.getD_eq hstart
    refine ⟨head, body ++ trace'.flatMap fun st => ops.getD st [], ?_, hchain.1.label⟩
    rw [nil_append, singleton_append, flatMap_cons, hget, cons_append]

end Order

/-! ## §3 Taking Out Branches -/

/-- Other opcodes lead to the same place, or stop where an end state that is never left was
entered. -/
def Refines (ir : Ir) (o o' : Option Arrival) : Prop :=
  o' = o ∨ ∃ d, ir.Sink d ∧ o = some (.enter d) ∧ o' = some (.stop .succ)

theorem Follows.refines {o o' : Option Arrival} {t : Option ℕ} (h : Follows ir o t)
    (ho : Refines ir o o') : Follows ir o' t := by
  obtain rfl | ⟨d, hd, rfl, rfl⟩ := ho
  · exact h
  · rcases h with h | ⟨d', -, -, h⟩
    · cases t with
      | none => exact absurd h (by simp [arrivalOf])
      | some d' =>
        have hdd : d = d' := by simpa [arrivalOf] using h
        exact .inr ⟨d, by rw [hdd], hd, rfl⟩
    · exact absurd h (by simp)

/-- Opcodes in front only matter up to where they lead to. -/
theorem Refines.append {c : Byte} (h : Refines ir (react s c) (react s' c)) (p : List DfavmOpIr) :
    Refines ir (react (p ++ s) c) (react (p ++ s') c) := by
  induction p with
  | nil => exact h
  | cons op p ih =>
    rw [cons_append, cons_append, react, react]
    cases op.label with
    | some d => exact .inl rfl
    | none =>
      cases op.instr with
      | fetch => exact .inl rfl
      | stop e =>
        dsimp only
        split
        · exact .inl rfl
        · exact ih
      | branch d =>
        dsimp only
        split
        · exact .inl rfl
        · exact ih

theorem BlocksOk.append (hreact : ∀ c, Refines ir (react s c) (react s' c))
    (hs : BlocksOk ir s → BlocksOk ir s') (h : BlocksOk ir (p ++ s)) : BlocksOk ir (p ++ s') := by
  induction p with
  | nil => exact hs h
  | cons op p ih =>
    exact ⟨fun d hd hsink c => (h.1 d hd hsink c).refines ((hreact c).append p), ih h.2⟩

namespace LinkedOps

variable {p q l : List DfavmOpIr} {op next target : DfavmOpIr} {dest : ℕ}

/-- A branch is not the first opcode of a state. -/
theorem label_eq_none (h : LinkedOps ir l) (hop : op ∈ l) (hbranch : op.instr = .branch dest) :
    op.label = none := by
  by_contra hlabel
  obtain ⟨d, hd⟩ := ne_none_iff_exists'.mp hlabel
  have := (h.heads op hop d hd).branchDest
  simp [DfavmOpIr.branchDest, hbranch] at this

/-- **One branch to `dest` is taken out** of the end `s` of the list, which becomes `s'`.  All
counts but that of `dest` stay, and a first opcode that goes was not reached by a branch. -/
theorem replace (h : LinkedOps ir (p ++ s)) (dest : ℕ)
    (hfirst : ∃ op rest, s = op :: rest ∧ op.label = none)
    (hsub : (labels s').Sublist (labels s))
    (hheads : ∀ op ∈ s', ∀ d, op.label = some d → op.IsHead ir d)
    (hbodies : ∀ op ∈ s', op.label = none → op.isFetch = false)
    (hcount : ∀ d, (branchDests s).count d = (branchDests s').count d + if dest = d then 1 else 0)
    (hdest : dest ∈ labels s')
    (hin : ∀ op ∈ s', op.label = none ∧ op.numIncoming = 0 ∨ ∃ op' ∈ s, op.label = op'.label ∧
      op.numIncoming = op'.numIncoming - if op'.label = some dest then 1 else 0)
    (hgone : ∀ d ∈ labels s, d ∉ labels s' → d ∉ branchDests (p ++ s))
    (hreact : ∀ c, Refines ir (react s c) (react s' c)) (hblocks : BlocksOk ir s → BlocksOk ir s') :
    LinkedOps ir (p ++ s') := by
  have hcount' : ∀ d, (branchDests (p ++ s)).count d =
      (branchDests (p ++ s')).count d + if dest = d then 1 else 0 := by
    intro d
    rw [branchDests_append, branchDests_append, count_append, count_append, hcount]
    omega
  -- the opcode labelled `dest` is in the part that changes
  have hother : ∀ op ∈ p, op.label ≠ some dest := by
    intro op hop hlabel
    have hnodup := h.nodup
    rw [labels_append] at hnodup
    exact disjoint_of_nodup_append hnodup (mem_labels.mpr ⟨op, hop, hlabel⟩)
      (hsub.subset hdest)
  refine ⟨?_, ?_, ?_, ?_, ?_, h.blocks.append hreact hblocks, ?_⟩
  · rw [labels_append]
    have hnodup := h.nodup
    rw [labels_append] at hnodup
    exact hnodup.sublist ((List.Sublist.refl _).append hsub)
  · intro op hop
    rcases mem_append.mp hop with hp | hs
    · exact h.heads op (mem_append_left _ hp)
    · exact hheads op hs
  · intro op hop
    rcases mem_append.mp hop with hp | hs
    · exact h.bodies op (mem_append_left _ hp)
    · exact hbodies op hs
  · intro op hop
    rcases mem_append.mp hop with hp | hs
    · rw [h.incoming op (mem_append_left _ hp)]
      cases hd : op.label with
      | none => rfl
      | some d =>
        have hne : dest ≠ d := fun heq => hother op hp (heq ▸ hd)
        rw [elim_some, elim_some, hcount', if_neg hne, add_zero]
    · rcases hin op hs with ⟨hlabel, hzero⟩ | ⟨op', hop', hlabel, hnum⟩
      · rw [hlabel, elim_none, hzero]
      · rw [hnum, hlabel, h.incoming op' (mem_append_right _ hop')]
        cases hd : op'.label with
        | none => rfl
        | some d =>
          rw [elim_some, elim_some, hcount']
          simp only [Option.some.injEq, eq_comm, Nat.add_sub_cancel]
  · intro d hd
    have hd' : d ∈ branchDests (p ++ s) := by
      rw [← count_pos_iff, hcount']
      exact lt_of_lt_of_le (count_pos_iff.mpr hd) (Nat.le_add_right _ _)
    have hmem := h.targets d hd'
    rw [labels_append, mem_append] at hmem ⊢
    refine hmem.imp_right fun hs => ?_
    by_contra hs'
    exact hgone d hs hs' hd'
  · obtain ⟨op, rest, heq, hstart⟩ := h.start
    cases p with
    | nil =>
      obtain ⟨op', rest', rfl, hlabel⟩ := hfirst
      rw [nil_append, List.cons.injEq] at heq
      rw [← heq.1, hlabel] at hstart
      exact absurd hstart (by simp)
    | cons op' p =>
      rw [cons_append, List.cons.injEq] at heq
      exact ⟨op', _, rfl, heq.1 ▸ hstart⟩

@[simp] theorem dropIncoming_label (op : DfavmOpIr) : op.dropIncoming.label = op.label := rfl

@[simp] theorem dropIncoming_branchDest (op : DfavmOpIr) :
    op.dropIncoming.branchDest = op.branchDest := rfl

theorem isHead_dropIncoming (h : op.IsHead ir d) : op.dropIncoming.IsHead ir d :=
  ⟨h.label, h.cmp, h.sink, h.state⟩

/-- Two first opcodes of the same state are the same. -/
theorem label_ne (h : LinkedOps ir (p ++ op :: q)) (hlabel : op.label = some dest) :
    ∀ op' ∈ q, op'.label ≠ some dest := by
  intro op' hop' hlabel'
  have hnodup := h.nodup
  rw [labels_append, labels_cons, hlabel] at hnodup
  have hcons : (dest :: labels q).Nodup := (nodup_append.mp hnodup).2.1
  exact (nodup_cons.mp hcons).1 (mem_labels.mpr ⟨op', hop', hlabel'⟩)

/-- A branch to the next opcode goes. -/
theorem eliminateToNext (h : LinkedOps ir (p ++ op :: next :: q))
    (hbranch : op.instr = .branch dest) (hnext : next.label = some dest) :
    LinkedOps ir (p ++ next.dropIncoming :: q) := by
  have hlabel := h.label_eq_none (by simp) hbranch
  have hdest : op.branchDest = some dest := by rw [DfavmOpIr.branchDest, hbranch]
  have h' : LinkedOps ir ((p ++ [op]) ++ next :: q) := by simpa using h
  refine h.replace dest ⟨op, _, rfl, hlabel⟩ ?_ ?_ ?_ ?_ ?_ ?_ ?_ ?_ fun hs => hs.2
  · simp [labels_cons, hlabel]
  · intro op' hop' d hd
    rcases mem_cons.mp hop' with rfl | hq
    · exact isHead_dropIncoming (h.heads next (by simp) d hd)
    · exact h.heads op' (by simp [hq]) d hd
  · intro op' hop' hnone
    rcases mem_cons.mp hop' with rfl | hq
    · exact h.bodies next (by simp) hnone
    · exact h.bodies op' (by simp [hq]) hnone
  · intro d
    rw [branchDests_cons, hdest, branchDests_cons, branchDests_cons, dropIncoming_branchDest]
    simp only [toList_some, singleton_append, count_cons, beq_iff_eq]
  · exact mem_labels.mpr ⟨next.dropIncoming, mem_cons_self, hnext⟩
  · intro op' hop'
    rcases mem_cons.mp hop' with rfl | hq
    · exact .inr ⟨next, by simp, rfl, by rw [if_pos hnext]; rfl⟩
    · refine .inr ⟨op', by simp [hq], rfl, ?_⟩
      rw [if_neg (h'.label_ne hnext op' hq), Nat.sub_zero]
  · intro d hd hd'
    exact absurd hd (by simpa [labels_cons, hlabel] using hd')
  · intro c
    rw [react_branch hlabel hbranch, react_label hnext,
      react_label (show next.dropIncoming.label = some dest from hnext), ite_self]
    exact .inl rfl

/-- Where an opcode leads if it is carried out. -/
def actionOf (op : DfavmOpIr) : Option Arrival :=
  match op.instr with
  | .fetch _ _ => none
  | .stop e => some (.stop e)
  | .branch d => some (.enter d)

/-- An opcode that has taken the place of a branch, with the inverted condition. -/
theorem react_flip (hlabel : op.label = none) (hfetch : next.isFetch = false) {cmp : VmCmp}
    (hinvert : op.cmp.invert = some cmp) (rest : List DfavmOpIr) (c : Byte) :
    react ({ next with label := op.label, cmp, cmpArg := op.cmpArg } :: rest) c =
      if op.cmp.holds c op.cmpArg then react rest c else actionOf next := by
  rw [react, hlabel]
  rw [VmCmp.holds_invert hinvert, actionOf]
  cases hi : next.instr with
  | fetch s e => simp [DfavmOpIr.isFetch, hi] at hfetch
  | stop e => cases op.cmp.holds c op.cmpArg <;> rfl
  | branch d => cases op.cmp.holds c op.cmpArg <;> rfl

/-- A branch over one opcode: that opcode is carried out at once, if the condition of the branch
does not hold. -/
theorem eliminateOverNext (h : LinkedOps ir (p ++ op :: next :: target :: q))
    (hbranch : op.instr = .branch dest)
    (htarget : target.label = some dest) (hfetch : next.isFetch = false)
    (hnext : next.numIncoming = 0) (hcmp : next.cmp = .always) {cmp : VmCmp}
    (hinvert : op.cmp.invert = some cmp) :
    LinkedOps ir (p ++ { next with label := op.label, cmp, cmpArg := op.cmpArg } ::
      target.dropIncoming :: q) := by
  have hlabel := h.label_eq_none (by simp) hbranch
  have hdest : op.branchDest = some dest := by rw [DfavmOpIr.branchDest, hbranch]
  have h' : LinkedOps ir ((p ++ [op, next]) ++ target :: q) := by simpa using h
  refine h.replace dest ⟨op, _, rfl, hlabel⟩ ?_ ?_ ?_ ?_ ?_ ?_ ?_ ?_ fun hs => ⟨?_, hs.2.2⟩
  · rw [labels_cons, labels_cons, labels_cons, labels_cons, labels_cons, hlabel]
    exact sublist_append_right _ _
  · intro op' hop' d hd
    rcases mem_cons.mp hop' with rfl | hop'
    · exact absurd (hlabel.symm.trans hd) (by simp)
    · rcases mem_cons.mp hop' with rfl | hq
      · exact isHead_dropIncoming (h.heads target (by simp) d hd)
      · exact h.heads op' (by simp [hq]) d hd
  · intro op' hop' hnone
    rcases mem_cons.mp hop' with rfl | hop'
    · exact hfetch
    · rcases mem_cons.mp hop' with rfl | hq
      · exact h.bodies target (by simp) hnone
      · exact h.bodies op' (by simp [hq]) hnone
  · intro d
    simp only [branchDests_cons, hdest, dropIncoming_branchDest, toList_some,
      singleton_append, count_cons, beq_iff_eq]
    rfl
  · exact mem_labels.mpr ⟨target.dropIncoming, by simp, htarget⟩
  · intro op' hop'
    rcases mem_cons.mp hop' with rfl | hop'
    · exact .inl ⟨hlabel, hnext⟩
    · rcases mem_cons.mp hop' with rfl | hq
      · exact .inr ⟨target, by simp, rfl, by rw [if_pos htarget]; rfl⟩
      · refine .inr ⟨op', by simp [hq], rfl, ?_⟩
        rw [if_neg (h'.label_ne htarget op' hq), Nat.sub_zero]
  · -- the label that goes is that of an opcode without incoming branches
    intro d hd hd'
    have hlabel' : next.label = some d := by
      simp only [labels_cons, hlabel, toList_none, nil_append, mem_append,
        Option.mem_toList, dropIncoming_label] at hd hd'
      exact hd.resolve_right hd'
    have hcount := h.incoming next (by simp)
    rw [hnext, hlabel', elim_some] at hcount
    exact count_eq_zero.mp hcount.symm
  · intro c
    have hskip : react (target.dropIncoming :: q) c = some (.enter dest) := react_label htarget q c
    rw [react_branch hlabel hbranch, react_flip hlabel hfetch hinvert, hskip]
    cases op.cmp.holds c op.cmpArg with
    | true => exact .inl rfl
    | false =>
      cases hnl : next.label with
      | none =>
        left
        simp only [react, hnl, hcmp]
        cases hi : next.instr <;> simp [actionOf, hi] at hfetch ⊢
      | some d =>
        -- the first opcode of a state that is no fetch: an end state that is never left
        have hhead := h.heads next (by simp) d hnl
        have hsink : ir.Sink d := by
          by_contra hsink
          simp [DfavmOpIr.isFetch, hhead.state hsink] at hfetch
        refine .inr ⟨d, hsink, react_label hnl _ c, ?_⟩
        simp [actionOf, hhead.sink hsink]
  · exact fun d hd => absurd (hlabel.symm.trans hd) (by simp)

end LinkedOps

theorem eliminateAt_linked {rest : List DfavmOpIr} {op : DfavmOpIr}
    (h : LinkedOps ir (p ++ op :: rest)) (hl : eliminateAt op rest = some l) :
    LinkedOps ir (p ++ l) := by
  obtain ⟨dest, hbranch, -, ⟨next, rest', rfl, hnext, rfl⟩ |
    ⟨next, target, rest', cmp, rfl, htarget, hfetch, hin, hcmp, hinvert, rfl⟩⟩ :=
    eliminateAt_cases hl
  · exact h.eliminateToNext hbranch hnext
  · exact h.eliminateOverNext hbranch htarget hfetch hin hcmp hinvert

theorem eliminatePass_linked (l : List DfavmOpIr) (h : LinkedOps ir (p ++ l)) :
    LinkedOps ir (p ++ (eliminatePass l).1) := by
  fun_induction eliminatePass l generalizing p with
  | case1 => exact h
  | case2 op rest l hl _ r =>
    rename_i ih
    exact ih (eliminateAt_linked h hl)
  | case3 op rest hl r =>
    rename_i ih
    have := ih (p := p ++ [op]) (by simpa using h)
    simpa using this

theorem eliminateUnnecessaryBranches_linked (l : List DfavmOpIr) (h : LinkedOps ir l) :
    LinkedOps ir (eliminateUnnecessaryBranches l) := by
  fun_induction eliminateUnnecessaryBranches l with
  | case1 l hdone => exact eliminatePass_linked l (p := []) h
  | case2 l hmore _ ih => exact ih (eliminatePass_linked l (p := []) h)

/-! ## §4 The Translation -/

theorem mapM_initialTranslateState (hir : ir.Valid) {ops : List (List DfavmOpIr)}
    (h : (ir.states.zipIdx.mapM fun p => initialTranslateState p.1 p.2) = some ops) :
    Chains ir (fixupDests ops) := by
  obtain ⟨hlen, hget⟩ := List.forall₂_iff_get.mp (mapM_eq_some_iff.mp h)
  rw [length_zipIdx] at hlen
  refine fixupDests_chains hlen.symm fun d hd => ?_
  have hchain := hget d (by rwa [length_zipIdx]) (hlen ▸ hd)
  simp only [get_eq_getElem, getElem_zipIdx, zero_add] at hchain
  obtain ⟨head, body, heq, hrest⟩ :=
    initialTranslateState_chain hir (getElem?_eq_getElem hd) hchain
  exact ⟨head, body, by rw [getElem?_eq_getElem (hlen ▸ hd), heq], hrest⟩

/-- **The opcodes that `dfavm_compile_ir` returns follow the IR.** -/
theorem dfavmCompileIr_linked (hir : ir.Valid) (hne : ir.states ≠ []) {optim : Bool}
    (h : dfavmCompileIr ir optim = some l) : LinkedOps ir l := by
  rw [dfavmCompileIr, if_neg hne] at h
  obtain ⟨ops, hops, rfl⟩ := Option.map_eq_some_iff.mp h
  have hlinked := orderBasicBlocks_linked (mapM_initialTranslateState hir hops) (hir.start_lt hne)
  cases optim with
  | false => exact hlinked
  | true => exact eliminateUnnecessaryBranches_linked _ hlinked

/-- The translation fails on complete states only. -/
theorem dfavmCompileIr_isSome_iff (optim : Bool) : (dfavmCompileIr ir optim).isSome = true ↔
    ∀ st ∈ ir.states, ∀ groups, st.strategy ≠ .irComplete groups := by
  unfold dfavmCompileIr
  split
  · rename_i hnil
    simp [hnil]
  · rw [isSome_map]
    have hall : ∀ l : List (IrState × ℕ),
        (l.mapM fun p => initialTranslateState p.1 p.2).isSome = true ↔
          ∀ p ∈ l, ∀ groups, p.1.strategy ≠ .irComplete groups := by
      intro l
      induction l with
      | nil => simp
      | cons p l ih =>
        rw [forall_mem_cons, ← ih, ← initialTranslateState_isSome p.1 p.2, mapM_cons]
        cases initialTranslateState p.1 p.2 with
        | none => simp
        | some chain => cases (l.mapM fun p => initialTranslateState p.1 p.2) <;> simp
    rw [hall]
    constructor
    · intro h st hst
      obtain ⟨d, hd⟩ := mem_iff_getElem?.mp hst
      exact h (st, d) (by simpa [mem_zipIdx_iff_getElem?] using hd)
    · exact fun h p hp => h p.1 (fst_mem_of_mem_zipIdx hp)

end Libfsm
