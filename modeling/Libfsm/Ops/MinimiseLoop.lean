import Libfsm.Lib.MooreClasses
import Libfsm.Ops.MinimiseClasses

/-!
# The Loop Of The Minimiser

Each attempt to split an EC on a label keeps the invariant of the ECs and only separates states;
when a pass over all ECs splits nothing, the states of each EC agree about every label.

- `Tried`: what `try_partition` does
- `Refined`: ECs that were split further
- `ecLabelLoop_spec`, `restartEc_spec`, `ecLoop_spec`: the loops, from the inside out
- `minimiseLoop_spec`: the loop ends, with ECs that nothing splits any more
-/

namespace Libfsm

open Lib Option
open List hiding nil cons set

/-! ## §1 One State -/

/-- The EC a state moves to. -/
def ecAfter (f : Fsm) (stateEcs : ℕ → Option ℕ) (s : ℕ) (c : Byte) : Option ℕ :=
  (f.next s c).bind stateEcs

section Check

variable {f : Fsm} {stateEcs : ℕ → Option ℕ} {stack : ℕ → Symbols} {s declared : ℕ} {label : Byte}

theorem fst_checkState : (checkState stack f stateEcs label s declared).1 = f.next s label := by
  rw [checkState, Fsm.next]
  unfold edgeSetCheckEdgesWithEcMapping
  cases (f.state s).edges with
  | null => rfl
  | array gs =>
    dsimp only [EdgeSet.groups_array]
    cases gs.entries.find? fun eg => eg.has label with
    | none => rfl
    | some first => rfl

/-- The label set has the labels that lead to the same EC. -/
theorem getLsbD_snd_checkState (hdfa : f.IsDfa) {t : ℕ} (hnext : f.next s label = some t)
    (c : Byte) : (checkState stack f stateEcs label s declared).2.getLsbD c = true ↔
      ∃ u, f.next s c = some u ∧ stateEcs u = stateEcs t := by
  simp only [hdfa.next_eq_some_iff]
  rw [Fsm.next] at hnext
  rw [checkState]
  unfold edgeSetCheckEdgesWithEcMapping
  unfold Fsm.Edge EdgeSet.HasEdge
  cases hedges : (f.state s).edges with
  | null =>
    rw [hedges] at hnext
    cases hnext
  | array gs =>
    rw [hedges, EdgeSet.groups_array] at hnext
    obtain ⟨first, hfirst, rfl⟩ := map_eq_some_iff.mp hnext
    dsimp only [EdgeSet.groups_array]
    rw [hfirst]
    rw [getLsbD_foldl_or]
    constructor
    · intro hor
      rcases hor with hzero | ⟨eg, heg, hec, hc⟩
      · simp at hzero
      · exact ⟨eg.toState, ⟨eg, heg, rfl, hc⟩, hec⟩
    · rintro ⟨u, ⟨eg, heg, hu, hc⟩, hec⟩
      exact .inr ⟨eg, heg, hu.symm ▸ hec, hc⟩

/-- States that the check does not tell apart move to the same ECs on the label, and on all labels
of the label set. -/
theorem ecAfter_eq_of_checkState (hdfa : f.IsDfa) {t declared' : ℕ}
    (hlinked : ∀ r c u, f.next r c = some u → (stateEcs u).isSome = true)
    (hdst : (checkState stack f stateEcs label s declared).1.bind stateEcs =
        (checkState stack f stateEcs label t declared').1.bind stateEcs)
    (hset : (checkState stack f stateEcs label s declared).2 =
        (checkState stack f stateEcs label t declared').2) {c : Byte}
    (hc : c = label ∨ (f.next t label).isSome = true ∧
      (checkState stack f stateEcs label t declared').2.getLsbD c = true) :
    ecAfter f stateEcs s c = ecAfter f stateEcs t c := by
  rw [fst_checkState, fst_checkState] at hdst
  rcases hc with rfl | ⟨hsome, hbit⟩
  · exact hdst
  · obtain ⟨v, hv⟩ := isSome_iff_exists.mp hsome
    obtain ⟨i, hi⟩ := isSome_iff_exists.mp (hlinked t label v hv)
    rw [hv, bind_some, hi] at hdst
    obtain ⟨u, hu, hui⟩ := bind_eq_some_iff.mp hdst
    have hbit' := hbit
    rw [← hset, getLsbD_snd_checkState hdfa hu] at hbit'
    obtain ⟨u', hu', huu⟩ := hbit'
    obtain ⟨v', hv', hvv⟩ := (getLsbD_snd_checkState hdfa hv c).mp hbit
    rw [ecAfter, ecAfter, hu', hv', bind_some, bind_some, huu, hvv, hui, hi]

end Check

/-! ## §2 One Attempt -/

/-- What an attempt to split the EC `ecSrc` does, with the states that stay and those that
leave. -/
structure Tried (f : Fsm) (env : MinEnv) (label : Byte) (ecSrc : ℕ)
    (kept unlinked : List ℕ) (r : MinEnv × ℕ × ℕ × Symbols) : Prop where
  perm : (kept ++ unlinked).Perm (env.ec ecSrc).states
  kept_ne : kept ≠ []
  classes : r.1.classes =
    env.classes.set ecSrc kept ++ if unlinked = [] then [] else [unlinked]
  links : r.1.stateEcs = env.stateEcs
  done : r.1.doneEcOffset = env.doneEcOffset
  srcCount : r.2.1 = kept.length
  dstCount : r.2.2.1 = unlinked.length
  same : unlinked = [] → ∃ declared, r.1 = { env with declared := declared }
  agree : ∀ s ∈ kept, ∀ t ∈ kept, ∀ c, c = label ∨ r.2.2.2.getLsbD c = true →
    ecAfter f env.stateEcs s c = ecAfter f env.stateEcs t c

theorem modify_states_self (env : MinEnv) (i : ℕ) :
    (env.ecs.modify i fun e => { e with states := (env.ec i).states }) = env.ecs := by
  apply ext_getElem?
  intro j
  rw [getElem?_modify]
  by_cases hij : i = j
  · subst hij
    rw [MinEnv.ec, getD_eq_getElem?_getD]
    cases env.ecs[i]? <;> simp
  · simp [hij]

/-- **One attempt.** -/
theorem tryPartition_spec (stack : ℕ → Symbols) {f : Fsm} {env : MinEnv} (label : Byte)
    {ecSrc : ℕ} (hdfa : f.IsDfa) (hne : (env.ec ecSrc).states ≠ [])
    (hlinked : ∀ r c u, f.next r c = some u → (env.stateEcs u).isSome = true) :
    ∃ kept unlinked, Tried f env label ecSrc kept unlinked
      (tryPartition stack f env label ecSrc) := by
  cases hstates : (env.ec ecSrc).states with
  | nil => exact absurd hstates hne
  | cons first rest =>
    set r := checkState stack f env.stateEcs label first env.declared with hr
    set same := matchesFirst stack f env.stateEcs label r with hsame
    set rest' := rest.zipIdx (env.declared + 1) with hrest
    have hmap : rest'.map Prod.fst = rest := zipIdx_map_fst _ _
    set kept := first :: (rest'.filter same).map Prod.fst with hkept
    set unlinked := ((rest'.filter fun e => !same e).map Prod.fst).reverse with hunlinked
    have htry : tryPartition stack f env label ecSrc =
        ({ env with
            ecs := if unlinked = [] then env.ecs.modify ecSrc fun e => { e with states := kept }
              else (env.ecs.modify ecSrc fun e => { e with states := kept }) ++
                [{ states := unlinked }]
            declared := env.declared + 1 + rest'.length },
          kept.length, unlinked.length, if r.1.isSome then r.2 else 0) := by
      rw [tryPartition, hstates]
    -- a state that stays has been compared with the first one
    have hmatch : ∀ s ∈ kept, ∃ declared,
        (checkState stack f env.stateEcs label s declared).1.bind env.stateEcs =
          r.1.bind env.stateEcs ∧
        (checkState stack f env.stateEcs label s declared).2 = r.2 := by
      intro s hs
      rcases mem_cons.mp hs with rfl | hs
      · exact ⟨env.declared, rfl, rfl⟩
      · obtain ⟨e, he, rfl⟩ := mem_map.mp hs
        have hpass := (mem_filter.mp he).2
        exact ⟨e.2, of_decide_eq_true hpass⟩
    have hperm : (kept ++ unlinked).Perm (first :: rest) := by
      apply List.Perm.cons
      refine ((reverse_perm _).append_left _).trans ?_
      rw [← map_append]
      conv_rhs => rw [← hmap]
      exact (filter_append_perm same rest').map Prod.fst
    rw [htry]
    refine ⟨kept, unlinked, ⟨hstates.symm ▸ hperm, cons_ne_nil _ _, ?_, rfl, rfl, rfl, rfl, ?_, ?_⟩⟩
    · have hmodify : (env.ecs.modify ecSrc fun e => { e with states := kept }).map Ec.states =
          env.classes.set ecSrc kept := by
        rw [MinEnv.map_states_modify _ _ fun _ => kept, ← set_eq_modify, ← MinEnv.classes]
      rw [MinEnv.classes]
      split
      · rw [hmodify, append_nil]
      · rw [map_append, hmodify]
        rfl
    · intro hnil
      -- every state of the rest was the same, so the list is what it was
      have hall : ∀ e ∈ rest', same e = true := by
        intro e he
        by_contra hne'
        have hmem : e.1 ∈ unlinked := by
          rw [mem_reverse]
          exact mem_map_of_mem (mem_filter.mpr ⟨he, by simpa using hne'⟩)
        rw [hnil] at hmem
        cases hmem
      have hkeptEq : kept = (env.ec ecSrc).states := by
        rw [hkept, hstates, filter_eq_self.mpr hall, hmap]
      refine ⟨env.declared + 1 + rest'.length, ?_⟩
      rw [if_pos hnil, hkeptEq, modify_states_self]
    · have hfirst : ∀ s ∈ kept, ∀ c, c = label ∨
          (if r.1.isSome = true then r.2 else 0).getLsbD c = true →
          ecAfter f env.stateEcs s c = ecAfter f env.stateEcs first c := by
        intro s hs c hc
        obtain ⟨declared, hdst, hset⟩ := hmatch s hs
        apply ecAfter_eq_of_checkState hdfa hlinked hdst hset
        refine hc.imp_right fun hbit => ?_
        split at hbit
        · rename_i hsome
          rw [fst_checkState] at hsome
          exact ⟨hsome, hbit⟩
        · simp at hbit
      intro s hs t ht c hc
      rw [hfirst s hs c hc, hfirst t ht c hc]

/-! ## §3 Refinement -/

/-- The ECs of `env'` are those of `env`, or parts of them. -/
structure Refined (n : ℕ) (env env' : MinEnv) : Prop where
  inv : EcInv n env'
  length_le : env.ecs.length ≤ env'.ecs.length
  together : ∀ {s t}, Together env'.classes s t → Together env.classes s t

namespace Refined

variable {n : ℕ} {env env' env'' : MinEnv}

theorem trans (h : Refined n env env') (h' : Refined n env' env'') : Refined n env env'' where
  inv := h'.inv
  length_le := h.length_le.trans h'.length_le
  together := fun hst => h.together (h'.together hst)

theorem refl (h : EcInv n env) : Refined n env env := ⟨h, le_rfl, id⟩

/-- Declaring label sets changes nothing. -/
theorem of_declared (h : EcInv n env) (declared : ℕ) :
    Refined n env { env with declared := declared } :=
  ⟨⟨h.linked.congr rfl rfl, h.done_le, h.single⟩, le_rfl, id⟩

end Refined

section Loop

variable {stack : ℕ → Symbols} {f : Fsm} {env : MinEnv}

theorem isSome_stateEcs (hwf : f.Wf) (h : EcLinked f.statecount env) (s : ℕ) (c : Byte) (t : ℕ)
    (hnext : f.next s c = some t) : (env.stateEcs t).isSome = true := by
  obtain ⟨i, hi⟩ := h.exists_stateEcs (hwf.edge_lt (Fsm.edge_of_next hnext))
  exact isSome_iff_exists.mpr ⟨i, hi⟩

/-- **A split** refines the ECs. -/
theorem Tried.refined {label : Byte} {ecI : ℕ} {kept unlinked : List ℕ}
    {r : MinEnv × ℕ × ℕ × Symbols} (ht : Tried f env label ecI kept unlinked r)
    (h : EcInv f.statecount env)
    (hec : ecI < env.doneEcOffset) (hne : unlinked ≠ []) (k : ℕ) :
    let r' := updateAfterPartition k r.1 r.2.1 r.2.2.1 ecI env.ecs.length
    Refined f.statecount env r'.1 ∧ r'.1.ecs.length = env.ecs.length + 1 ∧
      (r'.2 = false → ecI < r'.1.doneEcOffset) := by
  have hlt : ecI < env.ecs.length := hec.trans_le h.done_le
  have hget := MinEnv.getElem?_classes hlt
  have hdiv := h.linked.divides
  have hclasses : r.1.classes = env.classes.set ecI kept ++ [unlinked] := by
    rw [ht.classes, if_neg hne]
  have hsetLen : (env.classes.set ecI kept).length = env.ecs.length := by simp
  have hlen : r.1.ecs.length = env.ecs.length + 1 := by
    rw [← MinEnv.length_classes, hclasses, length_append, hsetLen]
    rfl
  have hflat : (kept ++ [unlinked].flatten).Perm (env.ec ecI).states := by
    simpa using ht.perm
  -- the ECs before the new one: the one that was split has shrunk, the others stay
  have hbefore : ∀ {i c}, i ≠ env.ecs.length → r.1.classes[i]? = some c →
      (i = ecI ∧ c = kept) ∨ (i ≠ ecI ∧ env.classes[i]? = some c) := by
    intro i c hi hc
    have hilt : i < env.ecs.length := by
      have := MinEnv.lt_of_getElem?_classes hc
      omega
    rw [hclasses, getElem?_append_left (hsetLen.symm ▸ hilt), getElem?_set,
      MinEnv.length_classes] at hc
    split at hc
    · rename_i hie
      exact .inl ⟨hie.symm, (some.inj hc).symm⟩
    · rename_i hie
      exact .inr ⟨Ne.symm hie, hc⟩
  -- the states that were unlinked still point to the old EC
  have hlinked : EcLinkedExcept f.statecount {env.ecs.length} r.1 := by
    refine ⟨?_, fun {i c} hi hc s hs => ?_, ht.links ▸ h.linked.dead⟩
    · rw [hclasses]
      exact hdiv.split hget hflat ht.kept_ne fun d hd => List.mem_singleton.mp hd ▸ hne
    · rw [ht.links]
      rcases hbefore hi hc with ⟨rfl, rfl⟩ | ⟨-, hc⟩
      · exact h.linked.link (Set.notMem_empty i) hget s
          (ht.perm.mem_iff.mp (mem_append_left _ hs))
      · exact h.linked.link (Set.notMem_empty i) hc s hs
  have hdst : (r.1.ec env.ecs.length).states = unlinked := by
    apply MinEnv.ec_states
    rw [hclasses, getElem?_append_right hsetLen.le, hsetLen, Nat.sub_self]
    rfl
  have hsrc : (r.1.ec ecI).states = kept := by
    apply MinEnv.ec_states
    rw [hclasses, getElem?_append_left (hsetLen.symm ▸ hlt), getElem?_set_self (by simpa using hlt)]
  obtain ⟨hinv, hlen', hperm, hsame⟩ := updateAfterPartition_spec r.2.1 r.2.2.1
    k hlinked hlen (ht.done.symm ▸ hec) (ht.done.symm ▸ h.done_le)
    (fun {i c} hi hid hc => by
      rw [ht.done] at hi
      rcases hbefore hid hc with ⟨rfl, -⟩ | ⟨-, hc⟩
      · exact absurd hec (Nat.not_lt_of_ge hi)
      · exact h.single hi hc)
    (by rw [hdst, ht.dstCount]) (by rw [hsrc, ht.srcCount])
  have htogether : ∀ s t, Together (updateAfterPartition k r.1 r.2.1 r.2.2.1 ecI
      env.ecs.length).1.classes s t ↔ Together env.classes s t ∧
        (s ∈ (env.ec ecI).states → Together [kept, unlinked] s t) := by
    intro s t
    rw [together_congr hperm, hclasses]
    exact together_split hdiv hget hflat s t
  refine ⟨⟨hinv, ?_, fun hst => ((htogether _ _).mp hst).1⟩, ?_, fun hr => (hsame hr).1⟩
  · rw [hlen', hlen]
    exact Nat.le_succ _
  · rw [hlen', hlen]

/-! ## §4 The Loops -/

/-- The states of the EC move to the same EC on `c`. -/
def AgreeOn (f : Fsm) (env : MinEnv) (i : ℕ) (c : Byte) : Prop :=
  ∀ s ∈ (env.ec i).states, ∀ t ∈ (env.ec i).states,
    ecAfter f env.stateEcs s c = ecAfter f env.stateEcs t c

/-- One state agrees with itself. -/
theorem agreeOn_of_tail {i : ℕ} (htail : (env.ec i).states.tail = []) (c : Byte) :
    AgreeOn f env i c := by
  intro s hs t ht
  cases hstates : (env.ec i).states with
  | nil =>
    rw [hstates] at hs
    cases hs
  | cons x l =>
    rw [hstates] at htail hs ht
    rw [tail_cons] at htail
    rw [htail] at hs ht
    rw [mem_singleton.mp hs, mem_singleton.mp ht]

/-- Attempts that led from `env` to `env'`: either something was split, or nothing changed and
`unsplit` was found to hold. -/
structure Attempted (n : ℕ) (env : MinEnv) (unsplit : Prop) (env' : MinEnv)
    (split : Bool) : Prop where
  refined : Refined n env env'
  grows : split = true → env.ecs.length < env'.ecs.length
  same : split = false → (∃ declared, env' = { env with declared := declared }) ∧ unsplit

variable {dfaLabels : List Byte} (hdfa : f.IsDfa) (hwf : f.Wf)
include hdfa hwf

/-- **The loop over the labels.** -/
theorem ecLabelLoop_spec (dfaLabels : List Byte) {ecI : ℕ} (labels : List Byte) (checked : Symbols)
    (h : EcInv f.statecount env) (hec : ecI < env.doneEcOffset) :
    let r := ecLabelLoop stack f dfaLabels ecI labels checked env
    Attempted f.statecount env ((∀ c : Byte, checked.getLsbD c = true → AgreeOn f env ecI c) →
      ∀ c ∈ labels, AgreeOn f env ecI c) r.1 r.2.1 ∧ (r.2.2 = true → r.2.1 = true) := by
  induction labels generalizing checked env with
  | nil =>
    refine ⟨⟨Refined.refl h, fun hfalse => ?_, fun _ => ⟨⟨env.declared, rfl⟩, fun _ c hc => ?_⟩⟩,
      id⟩
    · cases hfalse
    · cases hc
  | cons label labels ih =>
    rw [ecLabelLoop]
    split
    · -- the label was covered by one before
      rename_i hbit
      obtain ⟨hrec, hrestart⟩ := ih checked h hec
      refine ⟨⟨hrec.refined, hrec.grows, fun hsplit => ?_⟩, hrestart⟩
      obtain ⟨hsame, hagree⟩ := hrec.same hsplit
      refine ⟨hsame, fun hchecked c hc => ?_⟩
      rcases mem_cons.mp hc with rfl | hc
      · exact hchecked c hbit
      · exact hagree hchecked c hc
    · have hlt : ecI < env.ecs.length := hec.trans_le h.done_le
      obtain ⟨kept, unlinked, ht⟩ := tryPartition_spec stack label hdfa
        (h.linked.divides.nonempty _ (MinEnv.ec_mem hlt)) (isSome_stateEcs hwf h.linked)
      dsimp only
      split
      · rename_i hpos
        have hne : unlinked ≠ [] := length_pos_iff.mp (ht.dstCount ▸ hpos)
        obtain ⟨hrefined, hlen, hstay⟩ := ht.refined h hec hne dfaLabels.length
        set r' := updateAfterPartition dfaLabels.length (tryPartition stack f env label ecI).1
          (tryPartition stack f env label ecI).2.1 (tryPartition stack f env label ecI).2.2.1 ecI
          env.ecs.length with hr'
        have hgrow : env.ecs.length < r'.1.ecs.length := hlen ▸ Nat.lt_succ_self _
        split
        · exact ⟨⟨hrefined, fun _ => hgrow, fun hfalse => absurd hfalse (by simp)⟩, fun _ => rfl⟩
        · rename_i hrestart
          obtain ⟨hrec, -⟩ := ih (checked ||| (tryPartition stack f env label ecI).2.2.2)
            hrefined.inv (hstay (Bool.eq_false_of_not_eq_true hrestart))
          refine ⟨⟨hrefined.trans hrec.refined, fun _ => ?_, fun hfalse => ?_⟩, fun _ => rfl⟩
          · exact hgrow.trans_le hrec.refined.length_le
          · exact absurd hfalse (by simp)
      · rename_i hzero
        have hnil : unlinked = [] := by
          rw [ht.dstCount, not_lt, Nat.le_zero, length_eq_zero_iff] at hzero
          exact hzero
        obtain ⟨declared, hsame⟩ := ht.same hnil
        have hagree := ht.agree
        have hkept : ∀ s, s ∈ kept ↔ s ∈ (env.ec ecI).states := by
          intro s
          have hperm := ht.perm
          rw [hnil, append_nil] at hperm
          exact hperm.mem_iff
        simp only [hkept] at hagree
        rw [hsame]
        have hinv := (Refined.of_declared h declared).inv
        obtain ⟨hrec, hrestart⟩ := ih (checked ||| (tryPartition stack f env label ecI).2.2.2)
          hinv hec
        refine ⟨⟨(Refined.of_declared h declared).trans hrec.refined, hrec.grows,
          fun hsplit => ?_⟩, hrestart⟩
        obtain ⟨⟨declared', hsame'⟩, hall⟩ := hrec.same hsplit
        refine ⟨⟨declared', hsame'⟩, fun hchecked c hc => ?_⟩
        rcases mem_cons.mp hc with rfl | hc
        · exact fun s hs t ht' => hagree s hs t ht' c (.inl rfl)
        · apply hall _ c hc
          intro c' hc'
          rw [BitVec.getLsbD_or, Bool.or_eq_true] at hc'
          rcases hc' with hc' | hc'
          · exact hchecked c' hc'
          · exact fun s hs t ht' => hagree s hs t ht' c' (.inr hc')

omit hdfa hwf in
/-- The gathered labels are those on the edges. -/
theorem mem_labelsOf_labelSet {states : List ℕ} {c : Byte} :
    c ∈ labelsOf (labelSet f states) ↔ ∃ s ∈ states, ∃ t, f.Edge s c t := by
  have hedge : ∀ s, (∃ g ∈ edgeSetGroups (f.state s).edges, g.has c = true) ↔
      ∃ t, f.Edge s c t := by
    intro s
    constructor
    · rintro ⟨g, hg, hc⟩
      exact ⟨g.toState, g, (mem_edgeSetGroups.mp hg).1, rfl, hc⟩
    · rintro ⟨t, g, hg, -, hc⟩
      exact ⟨g, mem_edgeSetGroups.mpr ⟨hg, c, hc⟩, hc⟩
  rw [labelsOf, mem_filter, labelSet, foldl_or_iff (fun set : Symbols => set.getLsbD c = true)
    fun _ _ => by rw [getLsbD_foldl_symbols, hedge]]
  simp

/-- **One EC.** -/
theorem restartEc_spec {ecI : ℕ} (hlabels : dfaLabels = collectLabels f)
    (h : EcInv f.statecount env) (hec : ecI < env.doneEcOffset) :
    let r := restartEc stack f dfaLabels ecI env
    Attempted f.statecount env (∀ c, AgreeOn f env ecI c) r.1 r.2.1 ∧
      (r.2.2 = true → r.2.1 = true) := by
  rw [restartEc]
  split
  · rename_i htail
    exact ⟨⟨Refined.refl h, fun hfalse => absurd hfalse (by simp),
      fun _ => ⟨⟨env.declared, rfl⟩, agreeOn_of_tail htail⟩⟩, id⟩
  · obtain ⟨hattempt, hrestart⟩ := ecLabelLoop_spec hdfa hwf dfaLabels
      (if (env.ec ecI).small then labelsOf (labelSet f (env.ec ecI).states) else dfaLabels) 0 h hec
    refine ⟨⟨hattempt.refined, hattempt.grows, fun hsplit => ?_⟩, hrestart⟩
    obtain ⟨hsame, hagree⟩ := hattempt.same hsplit
    refine ⟨hsame, fun c => ?_⟩
    by_cases hc : c ∈ if (env.ec ecI).small then labelsOf (labelSet f (env.ec ecI).states)
      else dfaLabels
    · exact hagree (fun c' hc' => by simp at hc') c hc
    · -- no state of the EC has an edge with another label
      have hnone : ∀ s ∈ (env.ec ecI).states, f.next s c = none := by
        intro s hs
        cases hnext : f.next s c with
        | none => rfl
        | some t =>
          have hedge := Fsm.edge_of_next hnext
          refine absurd ?_ hc
          split
          · exact mem_labelsOf_labelSet.mpr ⟨s, hs, t, hedge⟩
          · rw [hlabels]
            exact mem_labelsOf_labelSet.mpr
              ⟨s, mem_range.mpr hedge.source_lt, t, hedge⟩
      intro s hs t ht
      rw [ecAfter, ecAfter, hnone s hs, hnone t ht]

/-- **The loop over the ECs** ends: each round goes on to the next EC or makes a new one. -/
theorem ecLoop_spec (hlabels : dfaLabels = collectLabels f) (fuel ecI : ℕ) (changed : Bool)
    (h : EcInv f.statecount env)
    (hfuel : (f.statecount - env.ecs.length) + (f.statecount - ecI) < fuel) :
    ∃ r, ecLoop stack f dfaLabels fuel ecI changed env = some r ∧
      Refined f.statecount env r.1 ∧
      (r.2 = true → changed = true ∨ env.ecs.length < r.1.ecs.length) ∧
      (r.2 = false → changed = false ∧ (∃ declared, r.1 = { env with declared := declared }) ∧
        ∀ i, ecI ≤ i → i < env.doneEcOffset → ∀ c, AgreeOn f env i c) := by
  induction fuel generalizing ecI changed env with
  | zero => cases hfuel
  | succ fuel ih =>
    rw [ecLoop]
    split
    · rename_i hec
      obtain ⟨hattempt, hrestart⟩ := restartEc_spec hdfa hwf hlabels h hec
      set r := restartEc stack f dfaLabels ecI env with hr
      have hle : r.1.ecs.length ≤ f.statecount := by
        have := hattempt.refined.inv.linked.divides.length_le
        rwa [MinEnv.length_classes] at this
      have hecle : ecI < f.statecount := by
        have := hattempt.refined.length_le
        have := h.done_le
        omega
      -- a restart needs a split, which leaves fewer ECs to make
      have hmeasure : (f.statecount - r.1.ecs.length) +
          (f.statecount - if r.2.2 = true then ecI else ecI + 1) < fuel := by
        have hgrow := hattempt.refined.length_le
        split
        · rename_i hagain
          have := hattempt.grows (hrestart hagain)
          omega
        · omega
      obtain ⟨r', hr', hrefined, htrue, hfalse⟩ := ih _ (changed || r.2.1)
        hattempt.refined.inv hmeasure
      refine ⟨r', hr', hattempt.refined.trans hrefined, fun hch => ?_, fun hch => ?_⟩
      · rcases htrue hch with hor | hlt
        · rw [Bool.or_eq_true] at hor
          refine hor.imp_right fun hsplit => ?_
          exact (hattempt.grows hsplit).trans_le hrefined.length_le
        · exact .inr (hattempt.refined.length_le.trans_lt hlt)
      · obtain ⟨hor, ⟨declared, hsame⟩, hagree⟩ := hfalse hch
        obtain ⟨hchanged, hsplit⟩ := Bool.or_eq_false_iff.mp hor
        obtain ⟨⟨declared', hsame'⟩, hagreeI⟩ := hattempt.same hsplit
        -- no round has changed anything, so what this one found still holds
        have hgo : ¬ r.2.2 = true := fun hagain => by
          rw [hrestart hagain] at hsplit
          cases hsplit
        rw [if_neg hgo, hsame'] at hagree
        refine ⟨hchanged, ⟨declared, by rw [hsame, hsame']⟩, fun i hi hlt => ?_⟩
        rcases Nat.lt_or_eq_of_le hi with hlt' | rfl
        · exact hagree i hlt' hlt
        · exact hagreeI
    · rename_i hec
      refine ⟨(env, changed), rfl, Refined.refl h, fun hch => .inl hch,
        fun hch => ⟨hch, ⟨env.declared, rfl⟩, fun i hi hlt => ?_⟩⟩
      exact absurd (hi.trans_lt hlt) hec

variable (stack) in
/-- **The loop** ends, with ECs whose states agree about all labels. -/
theorem minimiseLoop_spec (hlabels : dfaLabels = collectLabels f) (fuel : ℕ)
    (h : EcInv f.statecount env) (hfuel : f.statecount - env.ecs.length < fuel) :
    ∃ env', minimiseLoop stack f dfaLabels fuel env = some env' ∧
      Refined f.statecount env env' ∧ ∀ i < env'.ecs.length, ∀ c, AgreeOn f env' i c := by
  induction fuel generalizing env with
  | zero => cases hfuel
  | succ fuel ih =>
    obtain ⟨r, hr, hrefined, htrue, hfalse⟩ := ecLoop_spec hdfa hwf hlabels
      (2 * f.statecount + 1) 0 false h (by omega)
    rw [minimiseLoop, hr, bind_some]
    dsimp only
    split
    · rename_i hch
      have hgrow := (htrue hch).resolve_left (by simp)
      have hle : r.1.ecs.length ≤ f.statecount := by
        have := hrefined.inv.linked.divides.length_le
        rwa [MinEnv.length_classes] at this
      obtain ⟨env', henv', hrefined', hagree⟩ := ih hrefined.inv (by omega)
      exact ⟨env', henv', hrefined.trans hrefined', hagree⟩
    · rename_i hch
      obtain ⟨-, ⟨declared, hsame⟩, hagree⟩ := hfalse (Bool.eq_false_of_not_eq_true hch)
      refine ⟨r.1, rfl, hrefined, fun i hi c => ?_⟩
      rw [hsame] at hi ⊢
      rcases lt_or_ge i env.doneEcOffset with hlt | hge
      · exact hagree i (Nat.zero_le i) hlt c
      · -- ECs that are done have one state
        have htail := h.single hge (MinEnv.getElem?_classes hi)
        exact agreeOn_of_tail htail c

end Loop

end Libfsm
