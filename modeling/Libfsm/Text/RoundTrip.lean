import Libfsm.Text.Parse

/-!
# The .fsm Round Trip

What `fsm_parse` makes of the output of `fsm_print_fsm`.  The declarations give every state its
old number, each line of output adds its edge, and the end states are marked.  Two things are not
read the way they were written: an end ID is written in base 10 and read in base 16, and a
destination is cut to 24 bits on the way out.

- `Item`: the lines of the output, and what each adds to an FSM
- `Declared`: the table of names after the declarations
- `SameFsm`: the two FSMs are the same
- `fsmParse_fsmPrintFsm_iff`: when the FSM that is read is the one that was written
-/

namespace Libfsm

open Lib Function
open List hiding count set any nil cons

variable {s : ℕ} {f g q : Fsm} {ids : List ℕ}

/-! ## §1 Labels And Numbers -/

/-- Every label is read as it was written. -/
theorem labelValue_lexLabel (c : Byte) :
    labelValue (lexLabel (fsmEscputc c)) = some (some c) := by
  revert c
  decide +kernel

theorem decimal_injective : Injective decimal :=
  toDigits_injective (by decide) (by decide)

/-- An end ID as it is read again. -/
def rereadId (id : ℕ) : Option ℕ := endidValue (decimal id)

theorem rereadId_eq (id : ℕ) :
    rereadId id = if fsmEndIdMax < Nat.ofDigits 16 (Nat.digits 10 id) then none
      else some (Nat.ofDigits 16 (Nat.digits 10 id)) := by
  rw [rereadId, endidValue, decimal,
    readNumeral_toDigits (by decide) (by decide) (by decide), Option.bind_some]

/-- An ID never becomes smaller. -/
theorem le_of_rereadId {id id' : ℕ} (h : rereadId id = some id') : id ≤ id' := by
  rw [rereadId_eq] at h
  split at h
  · cases h
  · rw [← Option.some.inj h]
    exact le_ofDigits_digits (by decide) id

/-- An ID stays the same only if it has one digit. -/
theorem rereadId_eq_self_iff {id : ℕ} : rereadId id = some id ↔ id < 10 := by
  have hself : Nat.ofDigits 16 (Nat.digits 10 id) = id ↔ id < 10 :=
    ofDigits_digits_eq_self_iff (by decide) (by decide)
  rw [rereadId_eq]
  constructor
  · intro h
    split at h
    · cases h
    · exact hself.mp (Option.some.inj h)
  · intro h
    rw [hself.mpr h, if_neg]
    rw [fsmEndIdMax]
    omega

/-! ## §2 Names -/

theorem nameSlot_lt {count : ℕ} (h : 0 < count) (id : List Char) : nameSlot count id < count := by
  have hle : nameSlot count id ≤ count - 1 := Nat.and_le_right
  omega

section AddState

variable {act : ActState} {m : List Char → Option ℕ}

theorem chained_growIfLong {htab : ActStateset} (h : Chained nameSlot htab.buckets m) :
    Chained nameSlot (growIfLong htab).buckets m := by
  unfold growIfLong
  split
  · have hpos : 0 < 2 * htab.buckets.length := by
      have := h.pos
      omega
    exact (h.rechain hpos (nameSlot_lt hpos)).1
  · exact h

theorem addState_of_some (h : Chained nameSlot act.states.buckets m) {n : List Char}
    (hs : m n = some s) :
    ∃ states, addState act n = (s, { act with states := states }) ∧
      Chained nameSlot states.buckets m := by
  have hgrown := chained_growIfLong h
  have hfind := hgrown.find_eq n
  rw [hs] at hfind
  set g := growIfLong act.states with hg
  have heq : addState act n = (s, ⟨⟨max g.longestChainLength
      (chainLength (g.buckets.getD (nameSlot g.buckets.length n) []) n), g.buckets⟩,
      act.fsm⟩) := by
    unfold addState
    dsimp only
    rw [hfind]
  exact ⟨_, heq, hgrown⟩

theorem addState_of_none (h : Chained nameSlot act.states.buckets m) {n : List Char}
    (hn : m n = none) :
    ∃ states, addState act n =
        (act.fsm.statecount, { states := states, fsm := (fsmAddstate act.fsm).2 }) ∧
      Chained nameSlot states.buckets (update m n (some act.fsm.statecount)) := by
  have hgrown := chained_growIfLong h
  have hfind := hgrown.find_eq n
  rw [hn] at hfind
  set g := growIfLong act.states with hg
  have heq : addState act n = (act.fsm.statecount, {
        states :=
          { longestChainLength := max g.longestChainLength
              (chainLength (g.buckets.getD (nameSlot g.buckets.length n) []) n)
            buckets := chainPush g.buckets (nameSlot g.buckets.length n)
              (n, act.fsm.statecount) }
        fsm := (fsmAddstate act.fsm).2 }) := by
    unfold addState
    dsimp only
    rw [hfind]
    rfl
  exact ⟨_, heq, hgrown.push hn _ (nameSlot_lt hgrown.pos n)⟩

end AddState

/-- The first `n` numbers are the names of the states, and there are no other states. -/
structure Declared (act : ActState) (n : ℕ) : Prop where
  names : ∃ m, Chained nameSlot act.states.buckets m ∧
    ∀ i, m (decimal i) = if i < n then some i else none
  statecount : act.fsm.statecount = n

section Declared

variable {act : ActState} {n : ℕ}

theorem declared_init : Declared actStateInit 0 where
  names := ⟨fun _ => none, Chained.replicate nameSlot (by decide), fun _ => rfl⟩
  statecount := rfl

/-- The name of a state that was declared. -/
theorem Declared.addState_of_lt (h : Declared act n) {i : ℕ} (hi : i < n) :
    ∃ states, addState act (decimal i) = (i, { act with states := states }) ∧
      ∀ fsm : Fsm, fsm.statecount = n → Declared { states := states, fsm := fsm } n := by
  obtain ⟨m, hm, hnames⟩ := h.names
  obtain ⟨states, heq, hstates⟩ := addState_of_some hm ((hnames i).trans (if_pos hi))
  exact ⟨states, heq, fun fsm hfsm => ⟨⟨m, hstates, hnames⟩, hfsm⟩⟩

theorem Declared.addState_next (h : Declared act n) :
    ∃ states, addState act (decimal n) =
        (n, { states := states, fsm := (fsmAddstate act.fsm).2 }) ∧
      Declared { states := states, fsm := (fsmAddstate act.fsm).2 } (n + 1) := by
  obtain ⟨m, hm, hnames⟩ := h.names
  obtain ⟨states, heq, hstates⟩ := addState_of_none hm
    ((hnames n).trans (if_neg (lt_irrefl n)))
  rw [h.statecount] at heq hstates
  refine ⟨states, heq, ⟨_, hstates, fun i => ?_⟩, ?_⟩
  · rw [update_apply]
    by_cases hin : i = n
    · rw [hin, if_pos rfl, if_pos (Nat.lt_succ_self n)]
    · rw [if_neg fun h => hin (decimal_injective h), hnames]
      congr 1
      simp only [eq_iff_iff]
      omega
  · rw [statecount_fsmAddstate, h.statecount]

end Declared

/-! ## §3 Lines -/

/-- A line of output that says an edge. -/
inductive Item where
  | epsilon (s t : ℕ)
  | any (s t : ℕ)
  | literal (s t : ℕ) (c : Byte)

namespace Item

/-- The tokens of the line. -/
def tokens : Item → List Token
  | epsilon s t => epsilonLine s t
  | any s t => anyLine s t
  | literal s t c => labelLine s t c

/-- The state that the edge leaves. -/
def source : Item → ℕ
  | epsilon s _ => s
  | any s _ => s
  | literal s _ _ => s

/-- The state that the edge enters. -/
def target : Item → ℕ
  | epsilon _ t => t
  | any _ t => t
  | literal _ t _ => t

/-- What the line adds to an FSM. -/
def apply (f : Fsm) : Item → Fsm
  | epsilon s t => fsmAddedgeEpsilon f s t
  | any s t => fsmAddedgeAny f s t
  | literal s t c => fsmAddedgeLiteral f s t c

/-- The labelled edges that the line says. -/
def HasEdge (s : ℕ) (c : Byte) (t : ℕ) : Item → Prop
  | epsilon _ _ => False
  | any s' t' => s = s' ∧ t = t'
  | literal s' t' c' => s = s' ∧ t = t' ∧ c = c'

/-- The epsilon edge that the line says. -/
def HasEps (s t : ℕ) : Item → Prop
  | epsilon s' t' => s = s' ∧ t = t'
  | _ => False

end Item

variable {item : Item}

section Items

variable {act : ActState} {n : ℕ}

theorem parseTransition_label {tok : Token} {c : Byte} (h : labelValue tok = some (some c))
    (act : ActState) (x y : ℕ) (toks : List Token) :
    parseTransition act x y (tok :: .label :: toks) =
      some ({ act with fsm := fsmAddedgeLiteral act.fsm x y c }, toks) := by
  cases tok <;> simp [labelValue] at h <;> simp [parseTransition, labelValue, h]

/-- What a line says after its two states. -/
theorem Item.tokens_eq (item : Item) : ∃ toks, item.tokens =
      .ident (decimal item.source) :: .to :: .ident (decimal item.target) :: toks ∧
    ∀ act rest, parseTransition act item.source item.target (toks ++ rest) =
      some ({ act with fsm := item.apply act.fsm }, .sep :: rest) := by
  cases item with
  | epsilon s t => exact ⟨[.sep], rfl, fun _ _ => rfl⟩
  | any s t => exact ⟨[.any, .sep], rfl, fun _ _ => rfl⟩
  | literal s t c =>
    exact ⟨[lexLabel (fsmEscputc c), .label, .sep], rfl,
      fun act rest => parseTransition_label (labelValue_lexLabel c) act s t _⟩

@[simp] theorem statecount_applyItem (item : Item) (f : Fsm) :
    (item.apply f).statecount = f.statecount := by
  cases item with
  | epsilon s t => exact f.statecount_modifyState s _
  | any s t => rw [Item.apply, fsmAddedgeAny_eq, Fsm.statecount_modifyState]
  | literal s t c => exact f.statecount_modifyState s _

/-- **One line** between declared states adds its edge. -/
theorem parseItems_item (h : Declared act n) (hsource : item.source < n)
    (htarget : item.target < n) (fuel : ℕ) (rest : List Token) :
    ∃ states, parseItems (fuel + 1) act (item.tokens ++ rest) =
        parseItems fuel { states := states, fsm := item.apply act.fsm } rest ∧
      Declared { states := states, fsm := item.apply act.fsm } n := by
  obtain ⟨toks, htoks, hparse⟩ := item.tokens_eq
  obtain ⟨states₁, hsrc, hdecl₁⟩ := h.addState_of_lt hsource
  obtain ⟨states₂, hdst, hdecl₂⟩ := (hdecl₁ act.fsm h.statecount).addState_of_lt htarget
  refine ⟨states₂, ?_, hdecl₂ _ (by rw [statecount_applyItem, h.statecount])⟩
  rw [htoks]
  simp [parseItems, parseItem, hsrc, hdst, hparse, parseSep]

/-- **All lines** between declared states. -/
theorem parseItems_items (items : List Item) {act : ActState} (h : Declared act n)
    (hitems : ∀ item ∈ items, item.source < n ∧ item.target < n) (fuel : ℕ)
    (rest : List Token) :
    ∃ states, parseItems (items.length + fuel) act (items.flatMap Item.tokens ++ rest) =
        parseItems fuel { states := states, fsm := items.foldl Item.apply act.fsm } rest ∧
      Declared { states := states, fsm := items.foldl Item.apply act.fsm } n := by
  induction items generalizing act with
  | nil => exact ⟨act.states, by simp, h⟩
  | cons item items ih =>
    obtain ⟨hsource, htarget⟩ := hitems item mem_cons_self
    obtain ⟨states₁, hparse₁, hdecl₁⟩ := parseItems_item h hsource htarget (items.length + fuel)
      (items.flatMap Item.tokens ++ rest)
    obtain ⟨states₂, hparse₂, hdecl₂⟩ := ih hdecl₁ fun i hi =>
      hitems i (mem_cons_of_mem item hi)
    refine ⟨states₂, ?_, hdecl₂⟩
    rw [length_cons, flatMap_cons, append_assoc, add_right_comm, hparse₁,
      hparse₂, foldl_cons]

/-- **The declarations** make the states. -/
theorem parseItems_decls (k fuel : ℕ) (rest : List Token) :
    ∃ states, parseItems (k + fuel) actStateInit ((range k).flatMap declLine ++ rest) =
        parseItems fuel { states := states, fsm := (fun f => (fsmAddstate f).2)^[k] fsmNew } rest ∧
      Declared { states := states, fsm := (fun f => (fsmAddstate f).2)^[k] fsmNew } k := by
  induction k generalizing fuel rest with
  | zero => exact ⟨actStateInit.states, by simp; rfl, declared_init⟩
  | succ k ih =>
    obtain ⟨states₁, hparse₁, hdecl₁⟩ := ih (fuel + 1) (declLine k ++ rest)
    obtain ⟨states₂, hadd, hdecl₂⟩ := hdecl₁.addState_next
    refine ⟨states₂, ?_, ?_⟩
    · rw [range_succ, flatMap_append, flatMap_singleton, append_assoc,
        add_right_comm, add_assoc, hparse₁, iterate_succ_apply']
      simp [declLine, parseItems, parseItem, parseSep, hadd]
    · rw [iterate_succ_apply']
      exact hdecl₂

end Items

/-! ## §4 The FSM That The Lines Say -/

section Meaning

variable {f : Fsm}

/-- A line changes the edges of its source. -/
theorem edge_applyItem (hsource : item.source < f.statecount) (s : ℕ) (c : Byte) (t : ℕ) :
    (item.apply f).Edge s c t ↔ f.Edge s c t ∨ item.HasEdge s c t := by
  cases item with
  | epsilon s₀ t₀ =>
    exact Iff.trans (edge_fsmAddedgeEpsilon f s₀ t₀ s c t) (or_iff_left id).symm
  | any s₀ t₀ =>
    refine (edge_foldl_fsmAddedgeLiteral hsource t₀ (finRange 256)).trans ?_
    simp [Item.HasEdge, Item.source]
  | literal s₀ t₀ c₀ => exact edge_fsmAddedgeLiteral hsource t₀ c₀

theorem eps_applyItem (hsource : item.source < f.statecount) (s t : ℕ) :
    (item.apply f).Eps s t ↔ f.Eps s t ∨ item.HasEps s t := by
  cases item with
  | epsilon s₀ t₀ => exact eps_fsmAddedgeEpsilon hsource t₀ s t
  | any s₀ t₀ =>
    rw [Item.apply, fsmAddedgeAny_eq]
    exact Iff.trans (Fsm.eps_modifyState fun _ => rfl) (or_iff_left id).symm
  | literal s₀ t₀ c₀ => exact Iff.trans (Fsm.eps_modifyState fun _ => rfl) (or_iff_left id).symm

theorem isEnd_applyItem (item : Item) (s : ℕ) : (item.apply f).IsEnd s ↔ f.IsEnd s := by
  cases item with
  | epsilon s₀ t₀ => exact Fsm.isEnd_modifyState fun _ => rfl
  | any s₀ t₀ =>
    rw [Item.apply, fsmAddedgeAny_eq]
    exact Fsm.isEnd_modifyState fun _ => rfl
  | literal s₀ t₀ c₀ => exact Fsm.isEnd_modifyState fun _ => rfl

theorem endidInfo_applyItem (item : Item) : (item.apply f).endidInfo = f.endidInfo := by
  cases item with
  | epsilon s₀ t₀ => rfl
  | any s₀ t₀ => rw [Item.apply, fsmAddedgeAny_eq, Fsm.endidInfo_modifyState]
  | literal s₀ t₀ c₀ => rfl

/-- What an FSM has in common with `g`, with the edges of some lines added. -/
structure AddsItems (g : Fsm) (items : List Item) (q : Fsm) : Prop where
  statecount : q.statecount = g.statecount
  edge : ∀ s c t, q.Edge s c t ↔ g.Edge s c t ∨ ∃ item ∈ items, item.HasEdge s c t
  eps : ∀ s t, q.Eps s t ↔ g.Eps s t ∨ ∃ item ∈ items, item.HasEps s t
  isEnd : ∀ s, q.IsEnd s ↔ g.IsEnd s
  endidInfo : q.endidInfo = g.endidInfo

theorem addsItems_foldl (items : List Item) (f : Fsm)
    (hsource : ∀ item ∈ items, item.source < f.statecount) :
    AddsItems f items (items.foldl Item.apply f) := by
  induction items generalizing f with
  | nil => exact ⟨rfl, by simp, by simp, fun _ => Iff.rfl, rfl⟩
  | cons item items ih =>
    have hitem : item.source < f.statecount := hsource item mem_cons_self
    have ih := ih (item.apply f) fun i hi => by
      rw [statecount_applyItem]
      exact hsource i (mem_cons_of_mem item hi)
    refine ⟨?_, fun s c t => ?_, fun s t => ?_, fun s => ?_, ?_⟩
    · exact ih.statecount.trans (statecount_applyItem item f)
    · rw [foldl_cons, ih.edge, edge_applyItem hitem, or_assoc]
      simp only [mem_cons, exists_eq_or_imp]
    · rw [foldl_cons, ih.eps, eps_applyItem hitem, or_assoc]
      simp only [mem_cons, exists_eq_or_imp]
    · exact (ih.isEnd s).trans (isEnd_applyItem item s)
    · exact ih.endidInfo.trans (endidInfo_applyItem item)

end Meaning

/-- The FSM after the declarations: states without anything. -/
theorem declaredFsm_spec (n : ℕ) :
    ((fun f => (fsmAddstate f).2)^[n] fsmNew).statecount = n ∧
      (∀ s, ((fun f => (fsmAddstate f).2)^[n] fsmNew).state s = .fresh) ∧
      ((fun f => (fsmAddstate f).2)^[n] fsmNew).endidInfo = ∅ := by
  induction n with
  | zero => exact ⟨rfl, fun s => Fsm.state_of_le (Nat.zero_le s), rfl⟩
  | succ n ih =>
    obtain ⟨hcount, hstate, hids⟩ := ih
    rw [iterate_succ_apply']
    refine ⟨?_, fun s => ?_, ?_⟩
    · rw [statecount_fsmAddstate, hcount]
    · rw [state_fsmAddstate, hstate]
    · rw [endidInfo_fsmAddstate, hids]

/-! ## §5 The Lines Of A State -/

/-- The lines that `print_state` writes. -/
def stateItems (f : Fsm) (s : ℕ) : List Item :=
  (f.state s).epsilons.toList.map (Item.epsilon s) ++
    match findany f s with
    | some a => [.any s a]
    | none => (edgeSetOrderedEdges (f.state s).edges).map fun e =>
        .literal s e.state.toNat e.symbol

theorem printState_eq (f : Fsm) (s : ℕ) :
    printState f s = (stateItems f s).flatMap Item.tokens := by
  unfold printState stateItems
  rw [flatMap_append, flatMap_map]
  cases findany f s with
  | none =>
    rw [flatMap_map]
    rfl
  | some a =>
    rfl

theorem findanyLoop_spec {target : BitVec 24} {es : List FsmEdge} {seen seen' : List Byte}
    (h : findanyLoop target es seen = some seen') (hseen : seen.Nodup) :
    seen'.Nodup ∧ (∀ e ∈ es, e.state = target) ∧
      ∀ c ∈ seen', c ∈ seen ∨ ∃ e ∈ es, e.symbol = c := by
  induction es generalizing seen with
  | nil =>
    cases h
    exact ⟨hseen, by simp, fun c hc => .inl hc⟩
  | cons e es ih =>
    unfold findanyLoop at h
    split at h
    · cases h
    · rename_i htarget
      split at h
      · cases h
      · rename_i hnew
        obtain ⟨hnodup, hstate, hmem⟩ := ih h (nodup_cons.mpr ⟨hnew, hseen⟩)
        refine ⟨hnodup, ?_, fun c hc => ?_⟩
        · intro e' he'
          rcases mem_cons.mp he' with rfl | he'
          · exact (not_not.mp htarget).symm
          · exact hstate e' he'
        · rcases hmem c hc with hc | ⟨e', he', hc⟩
          · rcases mem_cons.mp hc with rfl | hc
            · exact .inr ⟨e, mem_cons_self, rfl⟩
            · exact .inl hc
          · exact .inr ⟨e', mem_cons_of_mem e he', hc⟩

/-- Where the shorthand is used, the edges as they are iterated lead to one state on all
symbols. -/
theorem findany_spec {a : ℕ} (h : findany f s = some a) :
    (∀ e ∈ edgeSetEdges (f.state s).edges, e.state.toNat = a) ∧
      ∀ c, ∃ e ∈ edgeSetEdges (f.state s).edges, e.symbol = c := by
  unfold findany at h
  split at h
  · cases h
  · rename_i e es hedges
    rw [hedges]
    split at h
    · cases h
    · split at h
      · cases h
      · rename_i seen hloop
        split at h
        · cases h
        · rename_i hlen
          obtain ⟨hnodup, hstate, hmem⟩ := findanyLoop_spec hloop nodup_nil
          refine ⟨fun e' he' => ?_, fun c => ?_⟩
          · rw [hstate e' he']
            exact Option.some.inj h
          · -- 256 different symbols are all symbols
            have hc : c ∈ seen := by
              have huniv : seen.toFinset = Finset.univ := by
                rw [← Finset.card_eq_iff_eq_univ, toFinset_card_of_nodup hnodup, Fintype.card_fin]
                exact not_not.mp hlen
              rw [← mem_toFinset, huniv]
              exact Finset.mem_univ c
            rcases hmem c hc with hc | hc
            · cases hc
            · exact hc

/-- **The labelled edges that are written** are those of the state, cut to 24 bits. -/
theorem hasEdge_stateItems (f : Fsm) (s s' : ℕ) (c : Byte) (t : ℕ) :
    (∃ item ∈ stateItems f s, item.HasEdge s' c t) ↔
      s' = s ∧ ∃ t', f.Edge s c t' ∧ t = t' % 2 ^ 24 := by
  have hepsilon : ∀ item ∈ (f.state s).epsilons.toList.map (Item.epsilon s),
      ¬item.HasEdge s' c t := by
    intro item hitem
    obtain ⟨u, -, rfl⟩ := mem_map.mp hitem
    exact id
  have hcut : ∀ {e : FsmEdge} {t' : ℕ}, e.state = BitVec.ofNat 24 t' →
      e.state.toNat = t' % 2 ^ 24 := by
    intro e t' h
    rw [h, BitVec.toNat_ofNat]
  -- the edges as they are iterated
  have hedges : (∃ t', f.Edge s c t' ∧ t = t' % 2 ^ 24) ↔
      ∃ e ∈ edgeSetEdges (f.state s).edges, t = e.state.toNat ∧ c = e.symbol := by
    constructor
    · intro ⟨t', ht', ht⟩
      exact ⟨⟨BitVec.ofNat 24 t', c⟩, mem_edgeSetEdges.mpr ⟨t', ht', rfl⟩, ht.trans (hcut rfl).symm,
        rfl⟩
    · intro ⟨e, he, ht, hc⟩
      obtain ⟨t', ht', hcut'⟩ := mem_edgeSetEdges.mp he
      exact ⟨t', hc ▸ ht', ht.trans (hcut hcut')⟩
  rw [hedges]
  unfold stateItems
  cases hany : findany f s with
  | some a =>
    obtain ⟨hstate, hsymbol⟩ := findany_spec hany
    constructor
    · intro ⟨item, hitem, hedge⟩
      rcases mem_append.mp hitem with hitem | hitem
      · exact absurd hedge (hepsilon item hitem)
      · obtain rfl := List.mem_singleton.mp hitem
        obtain ⟨e, he, hc⟩ := hsymbol c
        exact ⟨hedge.1, e, he, hedge.2.trans (hstate e he).symm, hc.symm⟩
    · intro ⟨hs, e, he, ht, _⟩
      exact ⟨.any s a, mem_append_right _ mem_cons_self, hs, ht.trans (hstate e he)⟩
  | none =>
    have hordered : ∀ e, e ∈ edgeSetOrderedEdges (f.state s).edges ↔
        e ∈ edgeSetEdges (f.state s).edges := fun e =>
      mem_edgeSetOrderedEdges.trans mem_edgeSetEdges.symm
    constructor
    · intro ⟨item, hitem, hedge⟩
      rcases mem_append.mp hitem with hitem | hitem
      · exact absurd hedge (hepsilon item hitem)
      · obtain ⟨e, he, rfl⟩ := mem_map.mp hitem
        exact ⟨hedge.1, e, (hordered e).mp he, hedge.2⟩
    · intro ⟨hs, e, he, hedge⟩
      exact ⟨_, mem_append_right _ (mem_map_of_mem ((hordered e).mpr he)), hs, hedge⟩

theorem hasEps_stateItems (f : Fsm) (s s' t : ℕ) :
    (∃ item ∈ stateItems f s, item.HasEps s' t) ↔ s' = s ∧ f.Eps s t := by
  have hlabelled : ∀ item ∈ (match findany f s with
      | some a => [Item.any s a]
      | none => (edgeSetOrderedEdges (f.state s).edges).map fun e : FsmEdge =>
          Item.literal s e.state.toNat e.symbol), ¬item.HasEps s' t := by
    intro item hitem
    split at hitem
    · obtain rfl := List.mem_singleton.mp hitem
      exact id
    · obtain ⟨e, -, rfl⟩ := mem_map.mp hitem
      exact id
  constructor
  · intro ⟨item, hitem, heps⟩
    rcases mem_append.mp hitem with hitem | hitem
    · obtain ⟨u, hu, rfl⟩ := mem_map.mp hitem
      obtain ⟨rfl, rfl⟩ := heps
      exact ⟨rfl, hu⟩
    · exact absurd heps (hlabelled item hitem)
  · intro ⟨hs, ht⟩
    exact ⟨.epsilon s t, mem_append_left _ (mem_map_of_mem ht), hs, rfl⟩

theorem stateItems_within (hwf : f.Wf) (hs : s < f.statecount) (hitem : item ∈ stateItems f s) :
    item.source < f.statecount ∧ item.target < f.statecount := by
  cases item with
  | epsilon s' t =>
    obtain ⟨rfl, ht⟩ := (hasEps_stateItems f s s' t).mp ⟨_, hitem, rfl, rfl⟩
    exact ⟨hs, hwf.eps_lt ht⟩
  | any s' t =>
    obtain ⟨rfl, t', ht', rfl⟩ := (hasEdge_stateItems f s s' 0 t).mp ⟨_, hitem, rfl, rfl⟩
    exact ⟨hs, (Nat.mod_le _ _).trans_lt (hwf.edge_lt ht')⟩
  | literal s' t c =>
    obtain ⟨rfl, t', ht', rfl⟩ := (hasEdge_stateItems f s s' c t).mp ⟨_, hitem, rfl, rfl, rfl⟩
    exact ⟨hs, (Nat.mod_le _ _).trans_lt (hwf.edge_lt ht')⟩

/-! ## §6 End States -/

/-- The IDs of a state as they are read again, one after another. -/
def rereadIds (s : ℕ) (ids : List ℕ) (q : Fsm) : Option Fsm :=
  ids.foldlM (fun q id => (rereadId id).map fun id' =>
    { q with endidInfo := endidSet q.endidInfo s id' }) q

/-- What the entry of an end state of `f` makes of the FSM that is read. -/
def rereadEnd (f q : Fsm) (s : ℕ) : Option Fsm :=
  rereadIds s (f.endidInfo.get s) (fsmSetend q s true)

theorem rereadIds_cons (s id : ℕ) (ids : List ℕ) (q : Fsm) :
    rereadIds s (id :: ids) q = (rereadId id).bind fun id' =>
      rereadIds s ids { q with endidInfo := endidSet q.endidInfo s id' } := by
  rw [rereadIds, foldlM_cons]
  cases rereadId id <;> rfl

theorem parseEndIds_printIds (s : ℕ) (rest : List Token) (hne : ids ≠ []) (act : ActState) :
    parseEndIds s act (printIds ids ++ .closeendids :: rest) =
      (rereadIds s ids act.fsm).map fun q => ({ act with fsm := q }, .closeendids :: rest) := by
  induction ids generalizing act with
  | nil => exact absurd rfl hne
  | cons id ids ih =>
    rw [rereadIds_cons]
    cases ids with
    | nil =>
      change (rereadId id).map _ = _
      cases rereadId id <;> rfl
    | cons id₂ ids =>
      change (rereadId id).bind _ = _
      cases rereadId id with
      | none => rfl
      | some id' => exact ih (cons_ne_nil id₂ ids) (markEndId act s id')

theorem parseEndIdList_defaultAccept (s : ℕ) (ids : List ℕ) (act : ActState) (tok : Token)
    (htok : tok ≠ .equals) (rest : List Token) :
    parseEndIdList act s (defaultAccept ids ++ tok :: rest) =
      (rereadIds s ids act.fsm).map fun q => ({ act with fsm := q }, tok :: rest) := by
  cases ids with
  | nil =>
    cases tok <;> first | rfl | exact absurd rfl htok
  | cons id ids =>
    have hids := parseEndIds_printIds s (tok :: rest) (cons_ne_nil id ids) act
    obtain ⟨toks, htoks⟩ : ∃ toks, printIds (id :: ids) = .endid (decimal id) :: toks := by
      cases ids <;> exact ⟨_, rfl⟩
    have haccept : defaultAccept (id :: ids) ++ tok :: rest =
        .equals :: .openendids :: (printIds (id :: ids) ++ .closeendids :: tok :: rest) := by
      simp [defaultAccept]
    rw [htoks] at hids
    rw [haccept, htoks, cons_append, parseEndIdList]
    · rw [← cons_append, hids]
      cases rereadIds s (id :: ids) act.fsm <;> rfl
    · simp

theorem printEnds_of_isend (hend : fsmIsend f s = true) (ss : List ℕ) (left : ℕ) :
    printEnds f (s :: ss) left =
      .ident (decimal s) :: defaultAccept (f.endidInfo.get s) ++
        (if 0 < left - 1 then [.comma] else [.sep]) ++ printEnds f ss (left - 1) := by
  rw [printEnds, if_neg]
  rw [hend]
  decide

/-- The loop prints nothing for the other states. -/
theorem printEnds_filter (f : Fsm) (ss : List ℕ) (left : ℕ) :
    printEnds f ss left = printEnds f (ss.filter (fsmIsend f)) left := by
  induction ss generalizing left with
  | nil => rfl
  | cons s ss ih =>
    cases hend : fsmIsend f s with
    | false => rw [filter_cons_of_neg (by simp [hend]), printEnds, if_pos hend, ih]
    | true =>
      rw [filter_cons_of_pos hend, printEnds_of_isend hend, printEnds_of_isend hend, ih]

/-- The tokens are fuel enough for the end states. -/
theorem length_le_printEnds {es : List ℕ} (hes : ∀ s ∈ es, fsmIsend f s = true) (left : ℕ) :
    es.length ≤ (printEnds f es left).length := by
  induction es generalizing left with
  | nil => exact Nat.zero_le _
  | cons s es ih =>
    have ih := ih (fun t ht => hes t (mem_cons_of_mem s ht)) (left - 1)
    rw [printEnds_of_isend (hes s mem_cons_self), length_append]
    simp only [cons_append, length_cons]
    omega

/-- What the entries of the end states of `f` add to `g`. -/
structure MarksEnds (f : Fsm) (es : List ℕ) (g q : Fsm) : Prop where
  statecount : q.statecount = g.statecount
  start : q.start = g.start
  edge : ∀ s c t, q.Edge s c t ↔ g.Edge s c t
  eps : ∀ s t, q.Eps s t ↔ g.Eps s t
  isEnd : ∀ s, q.IsEnd s ↔ g.IsEnd s ∨ s ∈ es
  endids : ∀ s id, id ∈ q.endidInfo.get s ↔ id ∈ g.endidInfo.get s ∨
    s ∈ es ∧ ∃ id₀ ∈ f.endidInfo.get s, rereadId id₀ = some id

theorem rereadIds_spec (h : rereadIds s ids g = some q) :
    ∃ m : IdTable, q = { g with endidInfo := m } ∧ ∀ t id, id ∈ m.get t ↔
      id ∈ g.endidInfo.get t ∨ t = s ∧ ∃ id₀ ∈ ids, rereadId id₀ = some id := by
  induction ids generalizing g with
  | nil =>
    obtain rfl := Option.some.inj h
    exact ⟨g.endidInfo, rfl, by simp⟩
  | cons id ids ih =>
    rw [rereadIds_cons] at h
    obtain ⟨id', hid', h⟩ := Option.bind_eq_some_iff.mp h
    obtain ⟨m, rfl, hm⟩ := ih h
    refine ⟨m, rfl, fun t i => ?_⟩
    rw [hm]
    simp only [mem_get_endidSet, mem_cons, exists_eq_or_imp, hid', Option.some.injEq]
    tauto

theorem marksEnds_rereadEnd (hs : s < g.statecount) (h : rereadEnd f g s = some q) :
    MarksEnds f [s] g q := by
  obtain ⟨m, rfl, hm⟩ := rereadIds_spec h
  have hstate : ∀ t, ({ fsmSetend g s true with endidInfo := m } : Fsm).state t =
      if t = s ∧ s < g.statecount then { g.state s with isEnd := true } else g.state t :=
    state_fsmSetend g s true
  refine ⟨statecount_fsmSetend g s true, start_fsmSetend g s true, edge_fsmSetend g s true,
    eps_fsmSetend g s true, fun t => ?_, fun t id => ?_⟩
  · rw [Fsm.IsEnd, hstate]
    by_cases hts : t = s
    · simp [hts, hs]
    · simp [hts, Fsm.IsEnd]
  · rw [hm, endidInfo_fsmSetend, List.mem_singleton]
    apply or_congr_right
    apply and_congr_right
    intro hts
    rw [hts]

/-- **The entries of the end states**, one after another. -/
theorem marksEnds_foldlM (es : List ℕ) (hes : ∀ s ∈ es, s < g.statecount)
    (h : es.foldlM (rereadEnd f) g = some q) : MarksEnds f es g q := by
  induction es generalizing g with
  | nil =>
    cases h
    exact ⟨rfl, rfl, fun _ _ _ => Iff.rfl, fun _ _ => Iff.rfl, by simp, by simp⟩
  | cons s es ih =>
    obtain ⟨q₁, hq₁, h⟩ := Option.bind_eq_some_iff.mp h
    have h₁ := marksEnds_rereadEnd (hes s mem_cons_self) hq₁
    have h₂ := ih (fun t ht => by
      rw [h₁.statecount]
      exact hes t (mem_cons_of_mem s ht)) h
    refine ⟨h₂.statecount.trans h₁.statecount, h₂.start.trans h₁.start, fun t c u => ?_,
      fun t u => ?_, fun t => ?_, fun t id => ?_⟩
    · rw [h₂.edge, h₁.edge]
    · rw [h₂.eps, h₁.eps]
    · rw [h₂.isEnd, h₁.isEnd, or_assoc, List.mem_singleton, List.mem_cons]
    · rw [h₂.endids, h₁.endids, or_assoc, ← or_and_right, List.mem_singleton, List.mem_cons]

/-- IDs that can be read again stop nothing. -/
theorem exists_foldlM_rereadEnd (hids : ∀ s, ∀ id ∈ f.endidInfo.get s, (rereadId id).isSome)
    (es : List ℕ) (g : Fsm) : ∃ q, es.foldlM (rereadEnd f) g = some q := by
  have hread : ∀ (s : ℕ) (ids : List ℕ) (g : Fsm), (∀ id ∈ ids, (rereadId id).isSome) →
      ∃ q, rereadIds s ids g = some q := by
    intro s ids
    induction ids with
    | nil => exact fun g _ => ⟨g, rfl⟩
    | cons id ids ih =>
      intro g hids
      obtain ⟨id', hid'⟩ := Option.isSome_iff_exists.mp (hids id mem_cons_self)
      rw [rereadIds_cons, hid']
      exact ih _ fun i hi => hids i (mem_cons_of_mem id hi)
  induction es generalizing g with
  | nil => exact ⟨g, rfl⟩
  | cons s es ih =>
    obtain ⟨q₁, hq₁⟩ := hread s (f.endidInfo.get s) (fsmSetend g s true) (hids s)
    obtain ⟨q, hq⟩ := ih q₁
    refine ⟨q, ?_⟩
    rw [foldlM_cons, rereadEnd, hq₁]
    exact hq

theorem parseEndStates_printEnds {n : ℕ} (es : List ℕ) (hne : es ≠ [])
    (hes : ∀ s ∈ es, s < n ∧ fsmIsend f s = true) {act : ActState} (h : Declared act n) {fuel : ℕ}
    (hfuel : es.length ≤ fuel) (rest : List Token) :
    ∃ states, parseEndStates fuel act (printEnds f es es.length ++ rest) =
      (es.foldlM (rereadEnd f) act.fsm).map fun q =>
        ({ states := states, fsm := q }, .sep :: rest) := by
  induction es generalizing act fuel with
  | nil => exact absurd rfl hne
  | cons s es ih =>
    obtain ⟨hs, hend⟩ := hes s mem_cons_self
    obtain ⟨fuel, rfl⟩ : ∃ k, fuel = k + 1 := ⟨fuel - 1, by simp at hfuel; omega⟩
    obtain ⟨states, hadd, hdecl⟩ := h.addState_of_lt hs
    rw [printEnds_of_isend hend, length_cons, Nat.add_sub_cancel, foldlM_cons]
    have hlist := parseEndIdList_defaultAccept s (f.endidInfo.get s)
      { states := states, fsm := fsmSetend act.fsm s true }
    have hrecord : ∀ q, rereadEnd f act.fsm s = some q →
        Declared { states := states, fsm := q } n := by
      intro q hq
      apply hdecl
      rw [(marksEnds_rereadEnd (h.statecount.symm ▸ hs) hq).statecount, h.statecount]
    -- the last state is followed by `;`, the others by a comma
    cases es with
    | nil =>
      refine ⟨states, ?_⟩
      have hlist := hlist .sep (by decide) rest
      simp only [length_nil, lt_irrefl, if_false, printEnds, append_nil, cons_append,
        append_assoc, nil_append, parseEndStates, hadd, hlist]
      unfold rereadEnd
      cases rereadIds s (f.endidInfo.get s) (fsmSetend act.fsm s true) <;> rfl
    | cons s₂ es =>
      have hlist := hlist .comma (by decide) (printEnds f (s₂ :: es) (s₂ :: es).length ++ rest)
      simp only [length_cons, Nat.zero_lt_succ, if_true, cons_append, append_assoc,
        nil_append, parseEndStates, hadd] at hlist ⊢
      rw [hlist]
      cases hread : rereadEnd f act.fsm s with
      | none =>
        rw [rereadEnd] at hread
        rw [hread]
        exact ⟨states, rfl⟩
      | some q =>
        obtain ⟨states', hparse⟩ := ih (cons_ne_nil s₂ es)
          (fun t ht => hes t (mem_cons_of_mem s ht)) (hrecord q hread)
          (Nat.le_of_succ_le_succ hfuel)
        rw [rereadEnd] at hread
        rw [hread]
        exact ⟨states', hparse⟩

/-! ## §7 The Round Trip -/

/-- All lines that say an edge. -/
def allItems (f : Fsm) : List Item := (range f.statecount).flatMap (stateItems f)

/-- The end states in the order in which they are written. -/
def endStates (f : Fsm) : List ℕ := (range f.statecount).filter (fsmIsend f)

theorem mem_endStates : s ∈ endStates f ↔ f.IsEnd s := by
  rw [endStates, mem_filter, mem_range]
  exact ⟨fun h => h.2, fun h => ⟨h.lt, h⟩⟩

/-- The FSM that is read from the declarations and the lines. -/
def readItems (f : Fsm) : Fsm :=
  (allItems f).foldl Item.apply ((fun f => (fsmAddstate f).2)^[f.statecount] fsmNew)

theorem exists_mem_allItems {P : Item → Prop} : (∃ item ∈ allItems f, P item) ↔
    ∃ s < f.statecount, ∃ item ∈ stateItems f s, P item := by
  simp only [allItems, mem_flatMap, mem_range]
  constructor
  · intro ⟨item, ⟨s, hs, hitem⟩, h⟩
    exact ⟨s, hs, item, hitem, h⟩
  · intro ⟨s, hs, item, hitem, h⟩
    exact ⟨item, ⟨s, hs, hitem⟩, h⟩

theorem allItems_within (hwf : f.Wf) (hitem : item ∈ allItems f) :
    item.source < f.statecount ∧ item.target < f.statecount := by
  obtain ⟨s, hs, hitem⟩ := mem_flatMap.mp hitem
  exact stateItems_within hwf (mem_range.mp hs) hitem

/-- The tokens are fuel enough for the lines. -/
theorem length_le_flatMap_tokens (items : List Item) :
    items.length ≤ (items.flatMap Item.tokens).length := by
  induction items with
  | nil => exact le_rfl
  | cons item items ih =>
    obtain ⟨toks, htoks, -⟩ := item.tokens_eq
    rw [flatMap_cons, length_append, htoks]
    simp only [length_cons]
    omega

theorem length_flatMap_declLine (n : ℕ) : ((range n).flatMap declLine).length = n * 2 := by
  simp [declLine]

/-- The declarations and the lines, read. -/
theorem parseItems_printed (hwf : f.Wf) (rest : List Token) :
    ∃ states, parseItems ((range f.statecount).flatMap declLine ++
          (range f.statecount).flatMap (printState f) ++ .start :: rest).length actStateInit
        ((range f.statecount).flatMap declLine ++
          (range f.statecount).flatMap (printState f) ++ .start :: rest) =
        some ({ states := states, fsm := readItems f }, .start :: rest) ∧
      Declared { states := states, fsm := readItems f } f.statecount := by
  have hlines : (range f.statecount).flatMap (printState f) =
      (allItems f).flatMap Item.tokens := by
    rw [allItems, flatMap_assoc]
    congr 1
    funext s
    exact printState_eq f s
  rw [hlines]
  obtain ⟨k, hk⟩ : ∃ k, ((range f.statecount).flatMap declLine ++
      (allItems f).flatMap Item.tokens ++ .start :: rest).length =
        f.statecount + ((allItems f).length + k) := by
    have hle := length_le_flatMap_tokens (allItems f)
    rw [length_append, length_append, length_flatMap_declLine]
    exact ⟨_, (Nat.add_sub_cancel' (by omega)).symm.trans (add_assoc _ _ _)⟩
  rw [hk, append_assoc]
  obtain ⟨states₁, hparse₁, hdecl₁⟩ := parseItems_decls f.statecount ((allItems f).length + k)
    ((allItems f).flatMap Item.tokens ++ .start :: rest)
  obtain ⟨states₂, hparse₂, hdecl₂⟩ := parseItems_items (allItems f) hdecl₁
    (fun item => allItems_within hwf) k (.start :: rest)
  refine ⟨states₂, ?_, hdecl₂⟩
  -- the next token is not a name, so the list of lines ends whatever fuel is left
  rw [hparse₁, hparse₂]
  cases k <;> rfl

/-- **What is read** is what the lines say, with the end states added to it. -/
theorem fsmParse_fsmPrintFsm (hwf : f.Wf) (hcount : f.endcount = fsmCount f fsmIsend) {start : ℕ}
    (hstart : f.start = some start) :
    fsmParse (fsmPrintFsm f) =
      (endStates f).foldlM (rereadEnd f) (fsmSetstart (readItems f) start) := by
  have hlen : f.endcount = (endStates f).length := by
    rw [hcount, fsmCount, endStates, countP_eq_length_filter]
  have hprint : fsmPrintFsm f = (range f.statecount).flatMap declLine ++
      (range f.statecount).flatMap (printState f) ++ .start :: .ident (decimal start) ::
        .sep :: ((if f.endcount = 0 then []
          else .ends :: printEnds f (endStates f) (endStates f).length) ++ [.eof]) := by
    rw [fsmPrintFsm, fsmGetstart, hstart, ← hlen, endStates, ← printEnds_filter]
    simp
  obtain ⟨states₁, hparse₁, hdecl₁⟩ := parseItems_printed hwf
    (.ident (decimal start) :: .sep :: ((if f.endcount = 0 then []
      else .ends :: printEnds f (endStates f) (endStates f).length) ++ [.eof]))
  obtain ⟨states₂, hadd, hdecl₂⟩ := hdecl₁.addState_of_lt (hwf.start_lt hstart)
  have hdecl₃ : Declared ⟨states₂, fsmSetstart (readItems f) start⟩ f.statecount :=
    hdecl₂ _ hdecl₁.statecount
  rw [fsmParse, hprint, hparse₁]
  simp only [parseXstart, parseSep, hadd, Option.bind_eq_bind, Option.bind_some, Option.pure_def]
  -- without end states no `end` line is printed
  by_cases hzero : f.endcount = 0
  · have hnil : endStates f = [] := length_eq_zero_iff.mp (hlen.symm.trans hzero)
    rw [if_pos hzero, hnil]
    rfl
  · have hne : endStates f ≠ [] := fun h => hzero (hlen.trans (by rw [h]; rfl))
    have hends : ∀ s ∈ endStates f, s < f.statecount ∧ fsmIsend f s = true := fun s hs =>
      ⟨(mem_endStates.mp hs).lt, mem_endStates.mp hs⟩
    have hfuel : (endStates f).length ≤
        (printEnds f (endStates f) (endStates f).length ++ [Token.eof]).length := by
      rw [length_append]
      exact Nat.le_add_right_of_le (length_le_printEnds (fun s hs => (hends s hs).2) _)
    obtain ⟨states₃, hparse₃⟩ := parseEndStates_printEnds (endStates f) hne hends hdecl₃ hfuel
      [.eof]
    rw [if_neg hzero, cons_append, parseXend, hparse₃]
    cases (endStates f).foldlM (rereadEnd f) (fsmSetstart (readItems f) start) <;> rfl

/-- The FSM that is read, against the one that was written. -/
structure ReadBack (f q : Fsm) : Prop where
  statecount : q.statecount = f.statecount
  start : q.start = f.start
  isEnd : ∀ s, q.IsEnd s ↔ f.IsEnd s
  eps : ∀ s t, q.Eps s t ↔ f.Eps s t
  edge : ∀ s c t, q.Edge s c t ↔ ∃ t', f.Edge s c t' ∧ t = t' % 2 ^ 24
  endids : ∀ s id, id ∈ q.endidInfo.get s ↔
    f.IsEnd s ∧ ∃ id₀ ∈ f.endidInfo.get s, rereadId id₀ = some id

theorem readBack_fsmParse (hwf : f.Wf) (hcount : f.endcount = fsmCount f fsmIsend) {start : ℕ}
    (hstart : f.start = some start) (h : fsmParse (fsmPrintFsm f) = some q) : ReadBack f q := by
  rw [fsmParse_fsmPrintFsm hwf hcount hstart] at h
  obtain ⟨hdeclCount, hdeclState, hdeclIds⟩ := declaredFsm_spec f.statecount
  have hitems : AddsItems ((fun f => (fsmAddstate f).2)^[f.statecount] fsmNew) (allItems f)
      (readItems f) := by
    apply addsItems_foldl
    intro item hitem
    rw [hdeclCount]
    exact (allItems_within hwf hitem).1
  have hreadCount : (readItems f).statecount = f.statecount := hitems.statecount.trans hdeclCount
  -- the lines add the edges, and the last one marks the ends
  have hends : MarksEnds f (endStates f) (fsmSetstart (readItems f) start) q := by
    apply marksEnds_foldlM (endStates f) _ h
    intro s hs
    exact (mem_endStates.mp hs).lt.trans_eq hreadCount.symm
  refine ⟨hends.statecount.trans hreadCount, hends.start.trans hstart.symm, fun s => ?_,
    fun s t => ?_, fun s c t => ?_, fun s id => ?_⟩
  · have hnone : ¬(readItems f).IsEnd s := by
      rw [hitems.isEnd, Fsm.IsEnd, hdeclState]
      decide
    rw [hends.isEnd, mem_endStates]
    exact or_iff_right hnone
  · rw [hends.eps]
    change (readItems f).Eps s t ↔ _
    rw [hitems.eps, Fsm.Eps, hdeclState, or_iff_right (by simp [FsmState.fresh]),
      exists_mem_allItems]
    simp only [hasEps_stateItems]
    refine ⟨?_, fun hst => ⟨s, hst.source_lt, rfl, hst⟩⟩
    rintro ⟨_, _, rfl, hst⟩
    exact hst
  · rw [hends.edge]
    change (readItems f).Edge s c t ↔ _
    rw [hitems.edge, Fsm.Edge, hdeclState, or_iff_right (by simp [FsmState.fresh]),
      exists_mem_allItems]
    simp only [hasEdge_stateItems]
    constructor
    · rintro ⟨_, _, rfl, hst⟩
      exact hst
    · rintro ⟨t', hst, ht⟩
      exact ⟨s, hst.source_lt, rfl, t', hst, ht⟩
  · rw [hends.endids, mem_endStates]
    change id ∈ (readItems f).endidInfo.get s ∨ _ ↔ _
    rw [hitems.endidInfo, hdeclIds, or_iff_right (by simp)]

/-- The two FSMs have the same states, marks, edges and end IDs, under the same numbers. -/
structure SameFsm (f q : Fsm) : Prop where
  statecount : q.statecount = f.statecount
  start : q.start = f.start
  isEnd : ∀ s, q.IsEnd s ↔ f.IsEnd s
  eps : ∀ s t, q.Eps s t ↔ f.Eps s t
  edge : ∀ s c t, q.Edge s c t ↔ f.Edge s c t
  endids : ∀ s id, id ∈ q.endidInfo.get s ↔ id ∈ f.endidInfo.get s

/-- IDs that are the same when they are read again have one digit. -/
theorem ids_lt_ten (h : ∀ id ∈ ids, ∃ id₀ ∈ ids, rereadId id₀ = some id) : ∀ id ∈ ids, id < 10 := by
  intro id hid
  -- the ID that this one is read from is not larger
  induction id using Nat.strong_induction_on with
  | _ id ih =>
    obtain ⟨id₀, hid₀, hread⟩ := h id hid
    rcases (le_of_rereadId hread).lt_or_eq with hlt | rfl
    · rw [rereadId_eq_self_iff.mpr (ih id₀ hlt hid₀)] at hread
      exact absurd (Option.some.inj hread) hlt.ne
    · exact rereadId_eq_self_iff.mp hread

/-- **The round trip** gives the same FSM exactly if no destination is cut, only end states have
end IDs, and every end ID is one digit. -/
theorem fsmParse_fsmPrintFsm_iff {f : Fsm} (hwf : f.Wf)
    (hcount : f.endcount = fsmCount f fsmIsend) (hstart : f.start.isSome) :
    (∃ q, fsmParse (fsmPrintFsm f) = some q ∧ SameFsm f q) ↔
      (∀ s c t, f.Edge s c t → t < 2 ^ 24) ∧ (∀ s, f.endidInfo.get s ≠ [] → f.IsEnd s) ∧
        ∀ s, ∀ id ∈ f.endidInfo.get s, id < 10 := by
  obtain ⟨start, hstart⟩ := Option.isSome_iff_exists.mp hstart
  constructor
  · intro ⟨q, hq, hsame⟩
    have hread := readBack_fsmParse hwf hcount hstart hq
    have hids : ∀ s id, id ∈ f.endidInfo.get s ↔
        f.IsEnd s ∧ ∃ id₀ ∈ f.endidInfo.get s, rereadId id₀ = some id := by
      intro s id
      rw [← hsame.endids, hread.endids]
    refine ⟨fun s c t hst => ?_, fun s hne => ?_, fun s => ?_⟩
    · obtain ⟨t', -, rfl⟩ := (hread.edge s c t).mp ((hsame.edge s c t).mpr hst)
      exact Nat.mod_lt _ (by decide)
    · obtain ⟨id, hid⟩ := exists_mem_of_ne_nil _ hne
      exact ((hids s id).mp hid).1
    · exact ids_lt_ten fun id hid => ((hids s id).mp hid).2
  · intro ⟨hcut, hends, hdigit⟩
    -- one digit is the same in base 10 and base 16
    have hself : ∀ s, ∀ id ∈ f.endidInfo.get s, rereadId id = some id := fun s id hid =>
      rereadId_eq_self_iff.mpr (hdigit s id hid)
    obtain ⟨q, hq⟩ := exists_foldlM_rereadEnd (fun s id hid => by rw [hself s id hid]; rfl)
      (endStates f) (fsmSetstart (readItems f) start)
    rw [← fsmParse_fsmPrintFsm hwf hcount hstart] at hq
    have hread := readBack_fsmParse hwf hcount hstart hq
    refine ⟨q, hq, hread.statecount, hread.start, hread.isEnd, hread.eps, fun s c t => ?_,
      fun s id => ?_⟩
    · rw [hread.edge]
      constructor
      · intro ⟨t', hst, ht⟩
        rwa [ht, Nat.mod_eq_of_lt (hcut s c t' hst)]
      · intro hst
        exact ⟨t, hst, (Nat.mod_eq_of_lt (hcut s c t hst)).symm⟩
    · rw [hread.endids]
      constructor
      · intro ⟨_, id₀, hid₀, h⟩
        rw [hself s id₀ hid₀] at h
        rwa [← Option.some.inj h]
      · intro hid
        exact ⟨hends s (ne_nil_of_mem hid), id, hid, hself s id hid⟩

/-- One end state with the ID 10, which is written `10` and read as 16. -/
def endIdTen : Fsm :=
  { states := [{ FsmState.fresh with isEnd := true }]
    endcount := 1
    start := some 0
    endidInfo := endidSet ∅ 0 10 }

theorem fsmParse_endIdTen :
    endIdTen.Wf ∧ endIdTen.endcount = fsmCount endIdTen fsmIsend ∧ endIdTen.start = some 0 ∧
      endIdTen.eagerOutputInfo = ∅ ∧ endIdTen.endidInfo.get 0 = [10] ∧
      ∃ q, fsmParse (fsmPrintFsm endIdTen) = some q ∧ q.endidInfo.get 0 = [16] ∧
        ¬SameFsm endIdTen q := by
  have hread : (fsmParse (fsmPrintFsm endIdTen)).map (fun q => q.endidInfo.get 0) = some [16] := by
    decide +kernel
  obtain ⟨q, hq, hids⟩ := Option.map_eq_some_iff.mp hread
  refine ⟨Fsm.wf_of_wfCheck (by decide), by decide, rfl, rfl, by decide, q, hq, hids, fun h => ?_⟩
  have hten := (h.endids 0 10).mpr (by decide)
  rw [hids] at hten
  exact absurd hten (by decide)

/-- An edge and an epsilon edge to an end state with the IDs 3 and 7. -/
def endIdsThreeSeven : Fsm :=
  { states := [{ edges := edgeSetAdd .null 97 1, epsilons := .singleton 1 }, { isEnd := true }]
    endcount := 1
    start := some 0
    endidInfo := endidSet (endidSet ∅ 1 3) 1 7 }

theorem fsmParse_endIdsThreeSeven :
    ∃ q, fsmParse (fsmPrintFsm endIdsThreeSeven) = some q ∧ SameFsm endIdsThreeSeven q := by
  have hwf : endIdsThreeSeven.Wf := Fsm.wf_of_wfCheck (by decide)
  have hids : ∀ s, endIdsThreeSeven.endidInfo.get s = if s = 1 then [3, 7] else [] := by
    intro s
    simp only [endIdsThreeSeven, endidSet, IdTable.get_insert]
    split
    · rfl
    · rfl
  refine (fsmParse_fsmPrintFsm_iff hwf (by decide) rfl).mpr ⟨fun s c t hst => ?_, fun s hs => ?_,
    fun s id hid => ?_⟩
  · exact (hwf.edge_lt hst).trans (by decide)
  · rw [hids] at hs
    split at hs
    · rename_i h
      rw [h]
      decide
    · exact absurd rfl hs
  · rw [hids] at hid
    split at hid
    · fin_cases hid <;> decide
    · cases hid

end Libfsm
