import Libfsm.Adt.EdgeSetReaders
import Libfsm.Adt.RawEdgeSet
import Libfsm.Ops.RemoveState
import Mathlib.Order.CompletePartialOrder

/-!
# Merging Two States

`fsm_mergestates` gives the edges of a state `b` to a state `a`, leads the edges to `b` to `a`,
and removes `b`.

The loop that leads the edges elsewhere adds to the edge set it is iterating over.  A group that
is inserted before the iterator makes it see a part of the groups again, which does no harm.
But an edge to `b` is recognised through `struct fsm_edge`, by 24 bits of its destination; the end
mark of `b` is not handed on, nor is its being the start state; and removing `b` moves the last
state to its index, which may be `a`.

- `redirectLoop`: the loop over one edge set
- `hasEdge_redirectEdges`: what it leaves
- `fsmMergestates`: the function
- `Quotient`: what it is for
- `fsmMergestates_quotient_iff`: when it does that
-/

namespace Libfsm

open Lib
open List hiding nil cons

variable {c : Byte} {set : EdgeSet} {n s t : ℕ}

/-! ## §1 Leading Edges Elsewhere -/

/-- The loop `for (edge_set_reset(..); edge_set_next(&it, &e); )`, which adds to the set that is
iterated over. -/
def redirectLoop (a b : ℕ) : ℕ → EdgeSet → EdgeIter → EdgeSet
  | 0, set, _ => set
  | fuel + 1, set, it =>
    match edgeSetNext set it with
    | none => set
    | some (e, it) =>
      redirectLoop a b fuel (if e.state.toNat = b then edgeSetAdd set e.symbol a else set) it

/-- Enough turns for the loop: at most 256 labels are new at `a`, and between two of them the
iterator goes once through all labels of all groups. -/
def redirectFuel (set : EdgeSet) : ℕ := 257 * (256 * (set.groups.length + 1) + 1)

def redirectEdges (a b : ℕ) (set : EdgeSet) : EdgeSet := redirectLoop a b (redirectFuel set) set {}

theorem mem_labelsFrom {sy : Symbols} {j : ℕ} :
    c ∈ labelsFrom sy j ↔ sy.getLsbD c = true ∧ j ≤ c.val := by
  simp only [labelsFrom, mem_map, mem_filter, mem_range'_1]
  constructor
  · rintro ⟨i, ⟨⟨hji, hi⟩, hbit⟩, rfl⟩
    have hval : (Fin.ofNat 256 i).val = i := Nat.mod_eq_of_lt (by omega)
    rw [hval]
    exact ⟨hbit, hji⟩
  · rintro ⟨hbit, hj⟩
    exact ⟨c.val, ⟨⟨hj, by omega⟩, hbit⟩, Fin.ofNat_val_eq_self c⟩

/-- The edges that are still to come, by the indices of their groups. -/
theorem mem_edgesFrom {gs : List EdgeGroup} {j : ℕ} {e : FsmEdge} :
    e ∈ edgesFrom gs j ↔ ∃ k g c, gs[k]? = some g ∧ g.has c = true ∧ (k = 0 → j ≤ c.val) ∧
      e = g.edge c := by
  induction gs generalizing j with
  | nil => simp [edgesFrom]
  | cons g gs ih =>
    rw [edgesFrom, mem_append, mem_map, ih]
    constructor
    · rintro (⟨c, hc, rfl⟩ | ⟨k, g', c, hk, hc, -, rfl⟩)
      · obtain ⟨hbit, hj⟩ := mem_labelsFrom.mp hc
        exact ⟨0, g, c, rfl, hbit, fun _ => hj, rfl⟩
      · exact ⟨k + 1, g', c, hk, hc, fun hk => absurd hk k.succ_ne_zero, rfl⟩
    · rintro ⟨k, g', c, hk, hc, hj, rfl⟩
      cases k with
      | zero =>
        cases hk
        exact .inl ⟨c, mem_labelsFrom.mpr ⟨hc, hj rfl⟩, rfl⟩
      | succ k => exact .inr ⟨k, g', c, hk, hc, fun _ => Nat.zero_le _, rfl⟩

theorem mem_edgesLeft {it : EdgeIter} {e : FsmEdge} :
    e ∈ edgesLeft set it ↔ ∃ k g c, set.groups[k]? = some g ∧ g.has c = true ∧ it.i ≤ k ∧
      (k = it.i → it.j ≤ c.val) ∧ e = g.edge c := by
  rw [edgesLeft, mem_edgesFrom]
  constructor
  · rintro ⟨k, g, c, hk, hc, hj, rfl⟩
    rw [getElem?_drop] at hk
    exact ⟨it.i + k, g, c, hk, hc, Nat.le_add_right _ _, fun h => hj (by omega), rfl⟩
  · rintro ⟨k, g, c, hk, hc, hle, hj, rfl⟩
    refine ⟨k - it.i, g, c, ?_, hc, fun h => hj (by omega), rfl⟩
    rw [getElem?_drop, Nat.add_sub_cancel' hle]
    exact hk

/-- Adding an edge hides nothing from the iterator. -/
theorem edgesLeft_subset_add (set : EdgeSet) (it : EdgeIter) (c : Byte) (t : ℕ) :
    edgesLeft set it ⊆ edgesLeft (edgeSetAdd set c t) it := by
  intro e he
  obtain ⟨k, g, c', hk, hc', hle, hj, rfl⟩ := mem_edgesLeft.mp he
  cases set with
  | null =>
    cases hk
  | array gs =>
    obtain ⟨k', hkk', hk'⟩ := exists_getElem?_upsertAt
      (EdgeGroup.addSymbols (BitVec.twoPow 256 c)) ⟨BitVec.twoPow 256 c, t⟩
      (findStatePosition gs.entries t) hk
    -- a group that ends up at the iterator's index was there or before it
    have hj' : k' = it.i → it.j ≤ c'.val := fun h => hj (by omega)
    rcases hk' with hk' | hk'
    · exact mem_edgesLeft.mpr ⟨k', g, c', hk', hc', hle.trans hkk', hj', rfl⟩
    · refine mem_edgesLeft.mpr ⟨k', _, c', hk', ?_, hle.trans hkk', hj', rfl⟩
      rw [EdgeGroup.has_addSymbols, hc', Bool.true_or]

/-- Adding an edge that is there changes nothing. -/
theorem edgeSetAdd_eq_self (h : set.HasEdge c t) : edgeSetAdd set c t = set := by
  cases set with
  | null => exact absurd h (hasEdge_null c t)
  | array gs =>
    obtain ⟨g, hg, rfl, hc⟩ := h
    have hsame : g.addSymbols (BitVec.twoPow 256 c) = g := by
      have hsymbols : g.symbols ||| BitVec.twoPow 256 c = g.symbols := by
        apply BitVec.eq_of_getLsbD_eq
        intro i hi
        rw [getLsbD_or_twoPow _ _ _ c.isLt]
        by_cases hci : c.val = i
        · subst hci
          have hbit : g.symbols.getLsbD c = true := hc
          rw [hbit, Bool.true_or]
        · simp [hci]
      rw [EdgeGroup.addSymbols, hsymbols]
    have hentries := SortedArray.upsertAt_eq_self gs.ascending
      (findStatePosition_position gs.ascending g.toState)
      ⟨BitVec.twoPow 256 c, g.toState⟩ hg rfl hsame
    simp only [edgeSetAdd, edgeSetAddBulk]
    congr 2

/-! ### One turn and all turns -/

/-- The labels that `a` does not have yet. -/
def missingLabels (a : ℕ) (set : EdgeSet) : Finset Byte :=
  Finset.univ.filter fun c => ¬ set.HasEdge c a

theorem missingLabels_add_ssubset {a : ℕ} (h : ¬ set.HasEdge c a) :
    missingLabels a (edgeSetAdd set c a) ⊂ missingLabels a set := by
  rw [Finset.ssubset_iff_of_subset]
  · refine ⟨c, by simp [missingLabels, h], ?_⟩
    simp [missingLabels]
  · intro c' hc'
    simp only [missingLabels, Finset.mem_filter, Finset.mem_univ, true_and,
      hasEdge_edgeSetAdd] at hc' ⊢
    tauto

/-- The set has grown from another one by edges to `a` for edges that look like edges to `b`. -/
structure Redirecting (a b : ℕ) (orig set : EdgeSet) : Prop where
  kept : ∀ c t, orig.HasEdge c t → set.HasEdge c t
  from_orig : ∀ c t, set.HasEdge c t →
    orig.HasEdge c t ∨ (t = a ∧ ∃ t', orig.HasEdge c t' ∧ t' % 2 ^ 24 = b)
  targets : ∀ g ∈ set.groups, g.toState = a ∨ ∃ g' ∈ orig.groups, g'.toState = g.toState

namespace Redirecting

variable {a b : ℕ} {orig set : EdgeSet}

theorem refl (a b : ℕ) (set : EdgeSet) : Redirecting a b set set where
  kept _ _ h := h
  from_orig _ _ h := .inl h
  targets g hg := .inr ⟨g, hg, rfl⟩

theorem toState_edgeSetAdd {g : EdgeGroup} (hg : g ∈ (edgeSetAdd set c a).groups) :
    g.toState = a ∨ ∃ g' ∈ set.groups, g'.toState = g.toState := by
  by_cases hga : g.toState = a
  · exact .inl hga
  · refine .inr ⟨g, ?_, rfl⟩
    cases set with
    | null =>
      rw [List.mem_singleton.mp hg] at hga
      exact absurd rfl hga
    | array gs =>
      have hpos := findStatePosition_position gs.ascending a
      exact (mem_upsertAt_of_key_ne (EdgeGroup.toState_addSymbols _) rfl (fun _ => hpos) hga).mp hg

theorem add (h : Redirecting a b orig set) (hedge : set.HasEdge c t) (ht : t % 2 ^ 24 = b) :
    Redirecting a b orig (edgeSetAdd set c a) where
  kept c' t' h' := (hasEdge_edgeSetAdd _ _ _ _ _).mpr (.inl (h.kept c' t' h'))
  from_orig c' t' h' := by
    rcases (hasEdge_edgeSetAdd _ _ _ _ _).mp h' with h' | ⟨rfl, rfl⟩
    · exact h.from_orig c' t' h'
    · rcases h.from_orig _ t hedge with horig | ⟨-, hex⟩
      · exact .inr ⟨rfl, t, horig, ht⟩
      · exact .inr ⟨rfl, hex⟩
  targets g hg := by
    rcases toState_edgeSetAdd hg with hga | ⟨g', hg', heq⟩
    · exact .inl hga
    · rw [← heq]
      exact h.targets g' hg'

/-- At most one group is new. -/
theorem length_groups_le (h : Redirecting a b orig set) :
    set.groups.length ≤ orig.groups.length + 1 := by
  have hnodup : (set.groups.map EdgeGroup.toState).Nodup :=
    pairwise_map.mpr (set.groups_ascending.imp ne_of_lt)
  have hsub : set.groups.map EdgeGroup.toState ⊆ a :: orig.groups.map EdgeGroup.toState := by
    intro t ht
    obtain ⟨g, hg, rfl⟩ := mem_map.mp ht
    rcases h.targets g hg with hga | ⟨g', hg', heq⟩
    · rw [hga]
      exact mem_cons_self
    · rw [← heq]
      exact mem_cons_of_mem _ (mem_map_of_mem hg')
  simpa using (hnodup.subperm hsub).length_le

end Redirecting

theorem length_edgesFrom_le (gs : List EdgeGroup) (j : ℕ) :
    (edgesFrom gs j).length ≤ 256 * gs.length := by
  induction gs generalizing j with
  | nil => exact Nat.zero_le _
  | cons g gs ih =>
    have hlabels : (labelsFrom g.symbols j).length ≤ 256 := by
      rw [labelsFrom, length_map]
      have := length_filter_le g.symbols.getLsbD (range' j (256 - j))
      rw [length_range'] at this
      omega
    have hrest := ih 0
    rw [edgesFrom, length_append, length_map, length_cons]
    omega

theorem length_edgesLeft_le (set : EdgeSet) (it : EdgeIter) :
    (edgesLeft set it).length ≤ 256 * set.groups.length := by
  have hle := length_edgesFrom_le (set.groups.drop it.i) it.j
  have hdrop : (set.groups.drop it.i).length ≤ set.groups.length := by
    rw [length_drop]
    omega
  exact hle.trans (Nat.mul_le_mul_left 256 hdrop)

/-- The turns that are left: each one sees one more edge, or gives `a` a new label. -/
def turnsLeft (a : ℕ) (orig set : EdgeSet) (it : EdgeIter) : ℕ :=
  (missingLabels a set).card * (256 * (orig.groups.length + 1) + 1) + (edgesLeft set it).length

/-- An edge that looks like an edge to `b` is led to `a`, or still to be seen. -/
def Covered (a b : ℕ) (orig set : EdgeSet) (left : List FsmEdge) : Prop :=
  ∀ c t, orig.HasEdge c t → t % 2 ^ 24 = b →
    set.HasEdge c a ∨ (⟨BitVec.ofNat 24 t, c⟩ : FsmEdge) ∈ left

theorem redirectLoop_spec {a b : ℕ} {orig : EdgeSet} (fuel : ℕ) {it : EdgeIter}
    (h : Redirecting a b orig set) (hcov : Covered a b orig set (edgesLeft set it))
    (hfuel : turnsLeft a orig set it < fuel) :
    Redirecting a b orig (redirectLoop a b fuel set it) ∧
      Covered a b orig (redirectLoop a b fuel set it) [] := by
  induction fuel generalizing set it with
  | zero => cases hfuel
  | succ fuel ih =>
    rw [redirectLoop]
    rcases edgeSetNext_spec set it with ⟨hnone, hnil⟩ | ⟨e, it', hnext, hcons⟩
    · rw [hnone]
      exact ⟨h, hnil ▸ hcov⟩
    · rw [hnext]
      dsimp only
      obtain ⟨k, g, c, hk, hc, -, -, rfl⟩ := mem_edgesLeft.mp (hcons ▸ mem_cons_self)
      have hg : g ∈ set.groups := mem_of_getElem? hk
      have hleft : (edgesLeft set it).length = (edgesLeft set it').length + 1 := by
        rw [hcons, length_cons]
      split
      · rename_i hb
        have hedge : set.HasEdge c g.toState := ⟨g, hg, rfl, hc⟩
        have hadd := h.add hedge hb
        refine ih hadd ?_ ?_
        · intro c' t' horig ht'
          rcases hcov c' t' horig ht' with hin | hmem
          · exact .inl ((hasEdge_edgeSetAdd _ _ _ _ _).mpr (.inl hin))
          · rw [hcons, mem_cons] at hmem
            rcases hmem with heq | hmem
            · have hcc : c' = c := congrArg FsmEdge.symbol heq
              exact .inl ((hasEdge_edgeSetAdd _ _ _ _ _).mpr (.inr ⟨rfl, hcc⟩))
            · exact .inr (edgesLeft_subset_add set it' _ _ hmem)
        · by_cases hthere : set.HasEdge c a
          · have hsame : edgeSetAdd set (g.edge c).symbol a = set := edgeSetAdd_eq_self hthere
            rw [hsame]
            unfold turnsLeft at hfuel ⊢
            omega
          · -- a new label: whatever is to be seen again, it is less than one round
            have hcard := Finset.card_lt_card (missingLabels_add_ssubset hthere)
            have hlen := length_edgesLeft_le (edgeSetAdd set (g.edge c).symbol a) it'
            have hround : 256 * (edgeSetAdd set (g.edge c).symbol a).groups.length ≤
                256 * (orig.groups.length + 1) := Nat.mul_le_mul_left 256 hadd.length_groups_le
            have hmul := Nat.mul_le_mul_right (256 * (orig.groups.length + 1) + 1)
              (Nat.succ_le_of_lt hcard)
            rw [Nat.succ_mul] at hmul
            have hsymbol : (g.edge c).symbol = c := rfl
            rw [hsymbol] at hlen hround ⊢
            unfold turnsLeft at hfuel ⊢
            generalize 256 * (orig.groups.length + 1) = round at hfuel hround hmul ⊢
            omega
      · rename_i hb
        refine ih h ?_ ?_
        · intro c' t' horig ht'
          rcases hcov c' t' horig ht' with hin | hmem
          · exact .inl hin
          · rw [hcons, mem_cons] at hmem
            rcases hmem with heq | hmem
            · have hst : t' % 2 ^ 24 = g.toState % 2 ^ 24 := by
                exact congrArg (fun e => e.state.toNat) heq
              exact absurd (hst.symm.trans ht') hb
            · exact .inr hmem
        · unfold turnsLeft at hfuel ⊢
          omega

/-- **One edge set**: the edges stay, and every label of an edge that looks like an edge to `b`
leads to `a` too. -/
theorem hasEdge_redirectEdges (a b : ℕ) (set : EdgeSet) (c : Byte) (t : ℕ) :
    (redirectEdges a b set).HasEdge c t ↔
      set.HasEdge c t ∨ (t = a ∧ ∃ t', set.HasEdge c t' ∧ t' % 2 ^ 24 = b) := by
  have hcov : Covered a b set set (edgesLeft set {}) := by
    intro c t hedge _
    obtain ⟨g, hg, rfl, hc⟩ := hedge
    obtain ⟨k, hk⟩ := mem_iff_getElem?.mp hg
    exact .inr (mem_edgesLeft.mpr ⟨k, g, c, hk, hc, Nat.zero_le k, fun _ => Nat.zero_le _, rfl⟩)
  have hfuel : turnsLeft a set set {} < redirectFuel set := by
    have hcard : (missingLabels a set).card ≤ 256 :=
      (Finset.card_le_univ _).trans_eq (Fintype.card_fin 256)
    have hlen := length_edgesLeft_le set {}
    have hmul := Nat.mul_le_mul_right (256 * (set.groups.length + 1) + 1) hcard
    unfold turnsLeft redirectFuel
    omega
  obtain ⟨hredirect, hdone⟩ :=
    redirectLoop_spec (redirectFuel set) (Redirecting.refl a b set) hcov hfuel
  constructor
  · exact hredirect.from_orig c t
  · rintro (hedge | ⟨rfl, t', hedge, ht'⟩)
    · exact hredirect.kept c t hedge
    · exact (hdone c t' hedge ht').resolve_right not_mem_nil

/-! ## §2 The Function -/

/-- A set with the capacity of its groups. -/
def EdgeSet.raw : EdgeSet → RawEdgeSet
  | .null => .null
  | .array gs => .array (gs.entries.length + 1) gs.entries

theorem EdgeSet.raw_valid (set : EdgeSet) : set.raw.Valid := by
  cases set with
  | null => exact trivial
  | array gs => exact ⟨gs.ascending, Nat.le_succ _, Nat.succ_pos _⟩

theorem EdgeSet.hasEdge_raw (set : EdgeSet) (c : Byte) (t : ℕ) :
    set.raw.HasEdge c t ↔ set.HasEdge c t := by
  cases set <;> rfl

theorem RawEdgeSet.valid_of_copy {dst src : EdgeSet} {set : RawEdgeSet}
    (h : dst.raw.copy src.raw = some set) : set.Valid := by
  rcases RawEdgeSet.copy_spec dst.raw_valid src.raw_valid with
    ⟨hnone, -⟩ | ⟨set', hsome, -, hvalid, -⟩
  · rw [hnone] at h
    cases h
  · rw [hsome] at h
    exact Option.some.inj h ▸ hvalid

/-- `edge_set_copy`; none if it reads through a NULL pointer. -/
def edgeSetCopyTo (dst src : EdgeSet) : Option EdgeSet :=
  match h : dst.raw.copy src.raw with
  | none => none
  | some set => some (set.toEdgeSet (RawEdgeSet.valid_of_copy h))

theorem edgeSetCopyTo_spec (dst src : EdgeSet) :
    (edgeSetCopyTo dst src = none ∧ dst ≠ .null ∧ src = .null) ∨
      ∃ set, edgeSetCopyTo dst src = some set ∧ (dst = .null ∨ src ≠ .null) ∧
        ∀ c t, set.HasEdge c t ↔ dst.HasEdge c t ∨ src.HasEdge c t := by
  have hnull : ∀ set : EdgeSet, set.raw = .null ↔ set = .null := by
    intro set
    cases set with
    | null => exact iff_of_true rfl rfl
    | array gs => exact iff_of_false nofun nofun
  rcases RawEdgeSet.copy_spec dst.raw_valid src.raw_valid with
    ⟨hnone, hdst, hsrc⟩ | ⟨raw, hsome, hok, hvalid, hedges⟩
  · left
    refine ⟨?_, fun h => hdst ((hnull dst).mpr h), (hnull src).mp hsrc⟩
    unfold edgeSetCopyTo
    split
    · rfl
    · rename_i h
      rw [hnone] at h
      cases h
  · right
    refine ⟨raw.toEdgeSet hvalid, ?_, ?_, fun c t => ?_⟩
    · unfold edgeSetCopyTo
      split
      · rename_i h
        rw [hsome] at h
        cases h
      · rename_i h
        rw [hsome] at h
        cases h
        rfl
    · exact hok.imp (hnull dst).mp fun h hs => h ((hnull src).mpr hs)
    · rw [← dst.hasEdge_raw, ← src.hasEdge_raw, ← hedges]
      show GroupsHave (raw.toEdgeSet hvalid).groups c t ↔ GroupsHave raw.groups c t
      rw [RawEdgeSet.groups_toEdgeSet]

/-- The part of `fsm_mergestates` that hands on the edges of `b`. -/
def FsmState.takeEdges (b : FsmState) (edges : EdgeSet) (st : FsmState) : FsmState :=
  { st with
    epsilons := stateSetCopy st.epsilons b.epsilons
    edges := edges }

/-- The body of its loop: what led to `b` leads to `a`. -/
def FsmState.redirect (a b : ℕ) (st : FsmState) : FsmState :=
  { st with
    epsilons :=
      if stateSetContains st.epsilons b then stateSetAdd (stateSetRemove st.epsilons b) a
      else st.epsilons
    edges := edgeSetRemoveState (redirectEdges a b st.edges) b }

/-- `fsm_mergestates`: the FSM and `*q`; none if it reads through a NULL pointer.  It returns 1
whenever memory can be had. -/
def fsmMergestates (f : Fsm) (a b : ℕ) : Option (Fsm × ℕ) :=
  match edgeSetCopyTo (f.state a).edges (f.state b).edges with
  | none => none
  | some edges =>
    let f := f.modifyState a (FsmState.takeEdges (f.state b) edges)
    let f := f.modifyAll (range f.statecount) fun _ => FsmState.redirect a b
    some (fsmRemovestate f b, a)

/-! ## §3 Before The Removal -/

section Redirect

variable {a b : ℕ} {st : FsmState}

theorem hasEdge_redirect (c : Byte) (t : ℕ) : (st.redirect a b).edges.HasEdge c t ↔
    t ≠ b ∧ (st.edges.HasEdge c t ∨ (t = a ∧ ∃ t', st.edges.HasEdge c t' ∧ t' % 2 ^ 24 = b)) := by
  rw [FsmState.redirect, hasEdge_edgeSetRemoveState, hasEdge_redirectEdges]
  exact and_comm

theorem mem_redirect_epsilons (hsorted : st.epsilons.Sorted) (hab : a ≠ b) (t : ℕ) :
    t ∈ (st.redirect a b).epsilons ↔
      t ≠ b ∧ (t ∈ st.epsilons ∨ (t = a ∧ b ∈ st.epsilons)) := by
  rw [FsmState.redirect]
  split
  · rename_i hcontains
    have hb := (hsorted.contains_iff b).mp hcontains
    rw [mem_stateSetAdd, mem_stateSetRemove hsorted]
    constructor
    · rintro (rfl | ⟨htb, ht⟩)
      · exact ⟨hab, .inr ⟨rfl, hb⟩⟩
      · exact ⟨htb, .inl ht⟩
    · rintro ⟨htb, ht | ⟨rfl, -⟩⟩
      · exact .inr ⟨htb, ht⟩
      · exact .inl rfl
  · rename_i hcontains
    have hb := fun h => hcontains ((hsorted.contains_iff b).mpr h)
    constructor
    · intro ht
      exact ⟨fun h => hb (h ▸ ht), .inl ht⟩
    · rintro ⟨-, ht | ⟨-, h⟩⟩
      · exact ht
      · exact absurd h hb

theorem redirect_sorted (hsorted : st.epsilons.Sorted) : (st.redirect a b).epsilons.Sorted := by
  rw [FsmState.redirect]
  split
  · exact stateSetAdd_sorted (stateSetRemove_sorted hsorted b) a
  · exact hsorted

end Redirect

/-- The states after `a` got the edges of `b`. -/
def joinedState (f : Fsm) (a b : ℕ) (edges : EdgeSet) (s : ℕ) : FsmState :=
  if s = a then FsmState.takeEdges (f.state b) edges (f.state s) else f.state s

/-- The FSM that `b` is removed from. -/
def redirected (f : Fsm) (a b : ℕ) (edges : EdgeSet) : Fsm :=
  (f.modifyState a (FsmState.takeEdges (f.state b) edges)).modifyAll
    (range (f.modifyState a (FsmState.takeEdges (f.state b) edges)).statecount)
    fun _ => FsmState.redirect a b

/-- The edges after `a` got those of `b`. -/
def Fsm.JoinedEdge (f : Fsm) (a b s : ℕ) (c : Byte) (t : ℕ) : Prop :=
  f.Edge s c t ∨ (s = a ∧ f.Edge b c t)

def Fsm.JoinedEps (f : Fsm) (a b s t : ℕ) : Prop := f.Eps s t ∨ (s = a ∧ f.Eps b t)

section Redirected

variable {f : Fsm} {a b : ℕ} {edges : EdgeSet}

@[simp] theorem statecount_redirected : (redirected f a b edges).statecount = f.statecount := by
  simp [redirected]

@[simp] theorem start_redirected : (redirected f a b edges).start = f.start := by
  simp [redirected]

theorem state_redirected (hs : s < f.statecount) :
    (redirected f a b edges).state s = (joinedState f a b edges s).redirect a b := by
  have hcount := f.statecount_modifyState a (FsmState.takeEdges (f.state b) edges)
  rw [redirected, Fsm.state_modifyAll _ nodup_range, hcount,
    if_pos ⟨mem_range.mpr hs, hs⟩, Fsm.state_modifyState, joinedState]
  by_cases hsa : s = a
  · rw [if_pos ⟨hsa, hsa ▸ hs⟩, if_pos hsa, hsa]
  · rw [if_neg fun h => hsa h.1, if_neg hsa]

theorem hasEdge_joinedState (hedges : ∀ c t, edges.HasEdge c t ↔ f.Edge a c t ∨ f.Edge b c t)
    (s : ℕ) (c : Byte) (t : ℕ) :
    (joinedState f a b edges s).edges.HasEdge c t ↔ f.JoinedEdge a b s c t := by
  unfold joinedState Fsm.JoinedEdge
  split
  · rename_i hsa
    rw [hsa]
    exact (hedges c t).trans (or_congr Iff.rfl (and_iff_right rfl).symm)
  · rename_i hsa
    exact ⟨.inl, fun h => h.resolve_right fun h => hsa h.1⟩

theorem mem_joinedState_epsilons (s t : ℕ) :
    t ∈ (joinedState f a b edges s).epsilons ↔ f.JoinedEps a b s t := by
  unfold joinedState Fsm.JoinedEps
  split
  · rename_i hsa
    rw [FsmState.takeEdges, mem_stateSetCopy, and_iff_right hsa]
    exact or_comm
  · rename_i hsa
    exact ⟨.inl, fun h => h.resolve_right fun h => hsa h.1⟩

theorem joinedState_sorted (hsorted : f.EpsilonsSorted) (s : ℕ) :
    (joinedState f a b edges s).epsilons.Sorted := by
  unfold joinedState
  split
  · exact stateSetCopy_sorted (hsorted s) _
  · exact hsorted s

theorem isEnd_redirected (hs : s < f.statecount) :
    (redirected f a b edges).IsEnd s ↔ f.IsEnd s := by
  rw [Fsm.IsEnd, state_redirected hs, joinedState]
  split <;> rfl

theorem edge_redirected (hedges : ∀ c t, edges.HasEdge c t ↔ f.Edge a c t ∨ f.Edge b c t)
    (hs : s < f.statecount) (c : Byte) (t : ℕ) :
    (redirected f a b edges).Edge s c t ↔ t ≠ b ∧
      (f.JoinedEdge a b s c t ∨ (t = a ∧ ∃ t', f.JoinedEdge a b s c t' ∧ t' % 2 ^ 24 = b)) := by
  rw [Fsm.Edge, state_redirected hs, hasEdge_redirect]
  simp only [hasEdge_joinedState hedges]

theorem eps_redirected (hsorted : f.EpsilonsSorted) (hab : a ≠ b) (hs : s < f.statecount) (t : ℕ) :
    (redirected f a b edges).Eps s t ↔ t ≠ b ∧
      (f.JoinedEps a b s t ∨ (t = a ∧ f.JoinedEps a b s b)) := by
  rw [Fsm.Eps, state_redirected hs, mem_redirect_epsilons (joinedState_sorted hsorted s) hab]
  simp only [mem_joinedState_epsilons]

theorem redirected_epsilonsSorted (hsorted : f.EpsilonsSorted) :
    (redirected f a b edges).EpsilonsSorted := by
  apply epsilonsSorted_of_lt
  intro s hs
  rw [state_redirected (by simpa using hs)]
  exact redirect_sorted (joinedState_sorted hsorted s)

/-- Two states of an FSM, and a set with the edges of both. -/
structure Merging (f : Fsm) (a b : ℕ) (edges : EdgeSet) : Prop where
  wf : f.Wf
  sorted : f.EpsilonsSorted
  ha : a < f.statecount
  hb : b < f.statecount
  ne : a ≠ b
  edges : ∀ c t, edges.HasEdge c t ↔ f.Edge a c t ∨ f.Edge b c t

theorem Merging.redirected_wf (h : Merging f a b edges) : (redirected f a b edges).Wf where
  start_lt hs := by
    rw [statecount_redirected]
    exact h.wf.start_lt (start_redirected ▸ hs)
  edge_lt hedge := by
    have hs := statecount_redirected ▸ hedge.source_lt
    rw [statecount_redirected]
    obtain ⟨-, hedge | ⟨rfl, -⟩⟩ := (edge_redirected h.edges hs _ _).mp hedge
    · exact hedge.elim h.wf.edge_lt fun hedge => h.wf.edge_lt hedge.2
    · exact h.ha
  eps_lt heps := by
    have hs := statecount_redirected ▸ heps.source_lt
    rw [statecount_redirected]
    obtain ⟨-, heps | ⟨rfl, -⟩⟩ := (eps_redirected h.sorted h.ne hs _).mp heps
    · exact heps.elim h.wf.eps_lt fun heps => h.wf.eps_lt heps.2
    · exact h.ha
  endids_below := by
    simpa [redirected] using h.wf.endids_below
  eager_below := by
    simpa [redirected] using h.wf.eager_below

end Redirected

/-! ## §4 The Quotient -/

/-- Where the states go when `b` is merged into the state that becomes `q`. -/
def mergedIndex (n b q s : ℕ) : ℕ := if s = b then q else if s = n - 1 then b else s

/-- The state `q` of `g` stands for both `a` and `b` of `f`; `φ` says where the other states are. -/
structure Quotient (f g : Fsm) (a b q : ℕ) (φ : ℕ → ℕ) : Prop where
  valid : q < g.statecount
  superset : f.language ≤ g.language
  outgoing : ∀ s, s = a ∨ s = b →
    (∀ c t, f.Edge s c t → g.Edge q c (φ t)) ∧ ∀ t, f.Eps s t → g.Eps q (φ t)
  incoming : ∀ t, t = a ∨ t = b →
    (∀ s c, f.Edge s c t → g.Edge (φ s) c q) ∧ ∀ s, f.Eps s t → g.Eps (φ s) q
  isEnd : f.IsEnd a ∨ f.IsEnd b → g.IsEnd q
  start : f.start = some a ∨ f.start = some b → g.start = some q

/-- What has to hold of the two states. -/
structure Fsm.MayMerge (f : Fsm) (a b : ℕ) : Prop where
  /-- `edge_set_copy` does not read through a NULL pointer -/
  copies : (f.state a).edges = .null ∨ (f.state b).edges ≠ .null
  /-- `a` is not the state that moves -/
  stays : a ≠ f.statecount - 1
  isEnd : f.IsEnd b → f.IsEnd a
  start : f.start ≠ some b
  /-- The start state does not move, or nothing is lost by that -/
  startStays : f.start = some (f.statecount - 1) → b = f.statecount - 1 ∨ f.language = 0
  /-- Edges to `b` can be recognised, or are not needed -/
  narrow : 2 ^ 24 ≤ b → ∀ s, s ≠ b → ∀ c, f.JoinedEdge a b s c b → f.JoinedEdge a b s c a

section Quotient

variable {f : Fsm} {a b : ℕ} {edges : EdgeSet}

theorem fsmMergestates_eq
    (hedges : edgeSetCopyTo (f.state a).edges (f.state b).edges = some edges) :
    fsmMergestates f a b = some (fsmRemovestate (redirected f a b edges) b, a) := by
  rw [fsmMergestates, hedges]
  rfl

theorem removedIndex_eq_mergedIndex (q : ℕ) (hs : s < n) (hne : s ≠ b) :
    removedIndex n b s = some (mergedIndex n b q s) := by
  rw [removedIndex_eq_some]
  exact ⟨hs, hne, by rw [mergedIndex, if_neg hne]⟩

/-- The state whose edges stand for those of `s` before the removal. -/
def representative (a b s : ℕ) : ℕ := if s = b then a else s

theorem representative_ne (hab : a ≠ b) (s : ℕ) : representative a b s ≠ b := by
  unfold representative
  split
  · exact hab
  · assumption

theorem representative_lt (ha : a < n) (hs : s < n) : representative a b s < n := by
  unfold representative
  split
  · exact ha
  · exact hs

/-- Both states of a merged pair go to the same place. -/
theorem mergedIndex_representative (hab : a ≠ b) (hstays : a ≠ n - 1) (s : ℕ) :
    mergedIndex n b a (representative a b s) = mergedIndex n b a s := by
  unfold representative
  split
  · rename_i hsb
    rw [hsb, mergedIndex, mergedIndex, if_neg hab, if_neg hstays, if_pos rfl]
  · rfl

/-- An edge or epsilon edge of `f` is also one of the representative of its source. -/
theorem joined_representative {P : ℕ → Prop} (h : P s) :
    P (representative a b s) ∨ (representative a b s = a ∧ P b) := by
  unfold representative
  split
  · rename_i hsb
    exact .inr ⟨rfl, hsb ▸ h⟩
  · exact .inl h

section Sufficient

variable (hm : Merging f a b edges) (hmay : f.MayMerge a b)
include hm hmay

/-- Where a state is found once `b` is removed. -/
theorem removedIndex_representative (hs : s < f.statecount) :
    removedIndex (redirected f a b edges).statecount b (representative a b s) =
      some (mergedIndex f.statecount b a s) := by
  rw [statecount_redirected, ← mergedIndex_representative hm.ne hmay.stays s]
  exact removedIndex_eq_mergedIndex a (representative_lt hm.ha hs) (representative_ne hm.ne s)

/-- Every edge is found between the images of its ends. -/
theorem edge_merged (h : f.Edge s c t) :
    (fsmRemovestate (redirected f a b edges) b).Edge (mergedIndex f.statecount b a s) c
      (mergedIndex f.statecount b a t) := by
  have hs := representative_lt (b := b) hm.ha h.source_lt
  have hjoined : f.JoinedEdge a b (representative a b s) c t :=
    joined_representative (P := (f.Edge · c t)) h
  -- the edge is there before `b` is removed
  have hedge : (redirected f a b edges).Edge (representative a b s) c (representative a b t) := by
    rw [edge_redirected hm.edges hs]
    refine ⟨representative_ne hm.ne t, ?_⟩
    by_cases htb : t = b
    · subst htb
      have hrep : representative a t t = a := if_pos rfl
      rw [hrep]
      rcases lt_or_ge t (2 ^ 24) with hlt | hge
      · exact .inr ⟨rfl, t, hjoined, Nat.mod_eq_of_lt hlt⟩
      · exact .inl (hmay.narrow hge _ (representative_ne hm.ne s) c hjoined)
    · have hrep : representative a b t = t := if_neg htb
      rw [hrep]
      exact .inl hjoined
  rw [edge_fsmRemovestate hm.redirected_wf (statecount_redirected.symm ▸ hm.hb)
    (removedIndex_representative hm hmay h.source_lt)]
  exact ⟨_, hedge, removedIndex_representative hm hmay (hm.wf.edge_lt h)⟩

theorem eps_merged (h : f.Eps s t) :
    (fsmRemovestate (redirected f a b edges) b).Eps (mergedIndex f.statecount b a s)
      (mergedIndex f.statecount b a t) := by
  have hs := representative_lt (b := b) hm.ha h.source_lt
  have hjoined : f.JoinedEps a b (representative a b s) t :=
    joined_representative (P := (f.Eps · t)) h
  have heps : (redirected f a b edges).Eps (representative a b s) (representative a b t) := by
    rw [eps_redirected hm.sorted hm.ne hs]
    refine ⟨representative_ne hm.ne t, ?_⟩
    by_cases htb : t = b
    · subst htb
      exact .inr ⟨if_pos rfl, hjoined⟩
    · have hrep : representative a b t = t := if_neg htb
      rw [hrep]
      exact .inl hjoined
  rw [eps_fsmRemovestate hm.redirected_wf (redirected_epsilonsSorted hm.sorted)
    (statecount_redirected.symm ▸ hm.hb) (removedIndex_representative hm hmay h.source_lt)]
  exact ⟨_, heps, removedIndex_representative hm hmay (hm.wf.eps_lt h)⟩

theorem isEnd_merged (h : f.IsEnd s) :
    (fsmRemovestate (redirected f a b edges) b).IsEnd (mergedIndex f.statecount b a s) := by
  have hs := representative_lt (b := b) hm.ha h.lt
  rw [isEnd_fsmRemovestate (statecount_redirected.symm ▸ hm.hb)
    (removedIndex_representative hm hmay h.lt), isEnd_redirected hs]
  unfold representative
  split
  · rename_i hsb
    exact hmay.isEnd (hsb ▸ h)
  · exact h

omit hm in
theorem start_merged (h : f.start = some s) (hs : s ≠ f.statecount - 1) :
    (fsmRemovestate (redirected f a b edges) b).start = some (mergedIndex f.statecount b a s) := by
  have hsb : s ≠ b := fun hsb => hmay.start (hsb ▸ h)
  rw [start_fsmRemovestate, start_redirected, if_neg hmay.start, h, mergedIndex, if_neg hsb,
    if_neg hs]

/-- **Sufficiency.** -/
theorem quotient_of_mayMerge : Quotient f (fsmRemovestate (redirected f a b edges) b) a b a
    (mergedIndex f.statecount b a) := by
  have hstays := hmay.stays
  have hia : mergedIndex f.statecount b a a = a := by
    rw [mergedIndex, if_neg hm.ne, if_neg hstays]
  have hib : mergedIndex f.statecount b a b = a := if_pos rfl
  have himage : ∀ s, s = a ∨ s = b → mergedIndex f.statecount b a s = a := by
    rintro s (rfl | rfl)
    · exact hia
    · exact hib
  refine ⟨?_, ?_, fun s hs => ⟨fun c t h => ?_, fun t h => ?_⟩,
    fun t ht => ⟨fun s c h => ?_, fun s h => ?_⟩, ?_, ?_⟩
  · have ha := hm.ha
    rw [statecount_fsmRemovestate, statecount_redirected]
    omega
  · intro w hw
    obtain ⟨s, hactive, hend⟩ := Fsm.mem_language_iff.mp hw
    refine Fsm.mem_language_iff.mpr ⟨_, hactive.map ?_ ?_, isEnd_merged hm hmay hend⟩
    · intro s₀ hs₀
      have hstart : f.start = some s₀ := hs₀
      -- the start state moves only where nothing is accepted
      refine start_merged hmay hstart fun hlast => ?_
      rcases hmay.startStays (hlast ▸ hstart) with hbl | hempty
      · exact hmay.start (hbl ▸ hlast ▸ hstart)
      · rw [hempty] at hw
        exact hw
    · intro s o t ht
      cases o with
      | none =>
        rw [Fsm.mem_toNfa_step_none] at ht ⊢
        exact eps_merged hm hmay ht
      | some c =>
        rw [Fsm.mem_toNfa_step_some] at ht ⊢
        exact edge_merged hm hmay ht
  · have hedge := edge_merged hm hmay h
    rwa [himage s hs] at hedge
  · have heps := eps_merged hm hmay h
    rwa [himage s hs] at heps
  · have hedge := edge_merged hm hmay h
    rwa [himage t ht] at hedge
  · have heps := eps_merged hm hmay h
    rwa [himage t ht] at heps
  · intro hend
    have hmerged : (fsmRemovestate (redirected f a b edges) b).IsEnd
        (mergedIndex f.statecount b a a) ∨
        (fsmRemovestate (redirected f a b edges) b).IsEnd (mergedIndex f.statecount b a b) :=
      hend.imp (isEnd_merged hm hmay) (isEnd_merged hm hmay)
    rwa [hia, hib, or_self] at hmerged
  · intro hstart
    have hmerged : (fsmRemovestate (redirected f a b edges) b).start =
        some (mergedIndex f.statecount b a a) :=
      start_merged hmay (hstart.resolve_right hmay.start) hstays
    rwa [hia] at hmerged

end Sufficient

/-- A start state outside of the array accepts nothing. -/
theorem language_eq_zero_of_start_le {g : Fsm} (hs : g.start = some s) (hle : g.statecount ≤ s) :
    g.language = 0 := by
  have honly : ∀ {w t}, g.Active w t → t = s := by
    intro w t hactive
    induction hactive with
    | base h => exact (Option.some.inj (hs.symm.trans h)).symm
    | eps _ ht ih =>
      have hlt := Fsm.Eps.source_lt (f := g) ht
      omega
    | symbol _ ht ih =>
      have hlt := Fsm.Edge.source_lt (f := g) ht
      omega
  ext w
  rw [Fsm.mem_language_iff]
  refine ⟨fun ⟨t, hactive, hend⟩ => ?_, fun hw => absurd hw (Language.notMem_zero w)⟩
  have hlt := hend.lt
  have := honly hactive
  omega

/-- **Necessity.** -/
theorem mayMerge_of_quotient (hm : Merging f a b edges)
    (hcopies : (f.state a).edges = .null ∨ (f.state b).edges ≠ .null)
    (hquot : Quotient f (fsmRemovestate (redirected f a b edges) b) a b a
      (mergedIndex f.statecount b a)) : f.MayMerge a b := by
  have hwf := hm.redirected_wf
  obtain ⟨-, -, ha, hb, hab, hedges⟩ := hm
  have hcount : (redirected f a b edges).statecount = f.statecount := statecount_redirected
  have hstays : a ≠ f.statecount - 1 := by
    have hvalid := hquot.valid
    rw [statecount_fsmRemovestate] at hvalid
    omega
  have hindex : ∀ {s}, s < f.statecount → s ≠ b → removedIndex (redirected f a b edges).statecount b
      s = some (mergedIndex f.statecount b a s) := by
    intro s hs hsb
    rw [hcount]
    exact removedIndex_eq_mergedIndex a hs hsb
  have hia : mergedIndex f.statecount b a a = a := by
    rw [mergedIndex, if_neg hab, if_neg hstays]
  have hb' : b < (redirected f a b edges).statecount := hcount.symm ▸ hb
  refine ⟨hcopies, hstays, fun hend => ?_, fun hstart => ?_, fun hstart => ?_,
    fun hge s hsb c h => ?_⟩
  · have hq := hquot.isEnd (.inr hend)
    rw [isEnd_fsmRemovestate hb' (hia ▸ hindex ha hab), isEnd_redirected ha] at hq
    exact hq
  · have hq := hquot.start (.inr hstart)
    rw [start_fsmRemovestate, start_redirected, if_pos hstart] at hq
    cases hq
  · -- the start state would be left behind the last state
    by_contra hno
    push Not at hno
    have hne : f.start ≠ some b := fun h => hno.1 (Option.some.inj (h.symm.trans hstart))
    have hempty : (fsmRemovestate (redirected f a b edges) b).language = 0 := by
      apply language_eq_zero_of_start_le (s := f.statecount - 1)
      · rw [start_fsmRemovestate, start_redirected, if_neg hne, hstart]
      · rw [statecount_fsmRemovestate, hcount]
    have hsuper := hquot.superset
    rw [hempty] at hsuper
    exact hno.2 (le_antisymm hsuper bot_le)
  · have hs : s < f.statecount := h.elim Fsm.Edge.source_lt fun h => h.1 ▸ ha
    have hq : (fsmRemovestate (redirected f a b edges) b).Edge
        (mergedIndex f.statecount b a s) c a := by
      have hincoming := (hquot.incoming b (.inr rfl)).1
      rcases h with h | ⟨rfl, h⟩
      · exact hincoming s c h
      · have hself := hincoming b c h
        rw [mergedIndex, if_pos rfl] at hself
        rwa [hia]
    rw [edge_fsmRemovestate hwf hb' (hindex hs hsb)] at hq
    obtain ⟨s', hedge, hs'⟩ := hq
    have hai := hindex ha hab
    rw [hia] at hai
    obtain rfl : s' = a := removedIndex_inj hs' hai
    -- no edge was taken for one to `b`, so this one was there
    obtain ⟨-, hjoined | ⟨-, t', -, ht'⟩⟩ := (edge_redirected hedges hs c s').mp hedge
    · exact hjoined
    · omega

/-- **`fsm_mergestates` forms the quotient** exactly if the two states may be merged. -/
theorem fsmMergestates_quotient_iff (hwf : f.Wf) (hsorted : f.EpsilonsSorted)
    (ha : a < f.statecount) (hb : b < f.statecount) (hab : a ≠ b) :
    (∃ g q, fsmMergestates f a b = some (g, q) ∧
      Quotient f g a b q (mergedIndex f.statecount b q)) ↔ f.MayMerge a b := by
  rcases edgeSetCopyTo_spec (f.state a).edges (f.state b).edges with
    ⟨hnone, hdst, hsrc⟩ | ⟨edges, hsome, hok, hedges⟩
  · constructor
    · rintro ⟨g, q, heq, -⟩
      rw [fsmMergestates, hnone] at heq
      cases heq
    · intro hmay
      exact absurd hsrc (hmay.copies.resolve_left hdst)
  · have heq := fsmMergestates_eq hsome
    have hm : Merging f a b edges := ⟨hwf, hsorted, ha, hb, hab, hedges⟩
    constructor
    · rintro ⟨g, q, heq', hquot⟩
      obtain ⟨rfl, rfl⟩ := Prod.mk.inj (Option.some.inj (heq.symm.trans heq'))
      exact mayMerge_of_quotient hm hok hquot
    · intro hmay
      exact ⟨_, _, heq, quotient_of_mayMerge hm hmay⟩

/-- Two states with an edge on `x` from 0 to 1 and one on `y` back; 0 is the start state. -/
def backAndForthFsm (end0 : Bool) : Fsm :=
  { states := [{ edges := edgeSetAdd .null 120 1, isEnd := end0 },
      { edges := edgeSetAdd .null 121 0, isEnd := true }],
    endcount := if end0 then 2 else 1,
    start := some 0 }

/-- Merging 1 into 0 leaves no end state: the word `x` is lost. -/
theorem fsmMergestates_loses_end :
    (backAndForthFsm false).Wf ∧ (backAndForthFsm false).EpsilonsSorted ∧
      (backAndForthFsm false).IsEnd 1 ∧
      ¬ ∃ g q, fsmMergestates (backAndForthFsm false) 0 1 = some (g, q) ∧
        Quotient (backAndForthFsm false) g 0 1 q
          (mergedIndex (backAndForthFsm false).statecount 1 q) := by
  refine ⟨Fsm.wf_of_wfCheck (by decide), epsilonsSorted_of_lt (by decide), by decide, ?_⟩
  rintro ⟨g, q, heq, hquot⟩
  have hend : (fsmMergestates (backAndForthFsm false) 0 1).map (fun r => fsmIsend r.1 r.2) =
      some false := by decide +kernel
  rw [heq] at hend
  have hq : g.IsEnd q := hquot.isEnd (.inr (by decide))
  exact Bool.false_ne_true ((Option.some.inj hend).symm.trans hq)

/-- With both states end states, 1 may be merged into 0. -/
theorem fsmMergestates_quotient_iff_backAndForth :
    ∃ g q, fsmMergestates (backAndForthFsm true) 0 1 = some (g, q) ∧
      Quotient (backAndForthFsm true) g 0 1 q
        (mergedIndex (backAndForthFsm true).statecount 1 q) := by
  refine (fsmMergestates_quotient_iff (Fsm.wf_of_wfCheck (by decide))
    (epsilonsSorted_of_lt (by decide)) (by decide) (by decide) (by decide)).mpr ?_
  exact ⟨.inr nofun, by decide, fun _ => by decide, by decide, fun _ => .inl rfl,
    fun h => absurd h (by decide)⟩

end Quotient

end Libfsm
