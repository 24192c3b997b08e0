import Libfsm.Ops.MinimiseClasses

/-!
# End Metadata In The Minimiser

`split_ecs_by_end_metadata`: states stay together if the same metadata was collected for them.
The first pass goes along each EC from its highest state down and leaves it at the first state
that has nothing to collect; what comes after counts as having no metadata.

- `collected`: the metadata that the first pass finds
- `SplitInv`: the second pass inside of one EC
- `splitEc_spec`, `Swept`: one EC, and the sweep
- `splitEcsByEndMetadata_spec`: the function as a whole
-/

namespace Libfsm

open Lib Function Option
open List hiding nil cons foldl set length

variable {l : List ℕ} {o s t : ℕ} {env' : MinEnv}

/-! ## §1 Collecting -/

/-- The metadata the first pass collects for `s`: its own, unless it stands after a state that
has nothing. -/
def collected (f : Fsm) (sed : ℕ → ℕ) (s : ℕ) : EndMetadata :=
  if ∀ t < f.statecount, sed t = sed s → s ≤ t → hasEndMetadata f t = true then
    collectEndMetadata f s
  else {}

/-- In a descending list, what is reached is what has only such states at or above it. -/
theorem mem_takeWhile_descending {p : ℕ → Bool} (hl : l.Pairwise (· > ·)) (hs : s ∈ l) :
    s ∈ l.takeWhile p ↔ ∀ t ∈ l, s ≤ t → p t = true := by
  induction l with
  | nil => cases hs
  | cons x l ih =>
    obtain ⟨hx, hl⟩ := pairwise_cons.mp hl
    rw [takeWhile_cons]
    by_cases hp : p x = true
    · rw [if_pos hp, mem_cons]
      rcases mem_cons.mp hs with rfl | hs
      · -- nothing else in the list is as high
        refine ⟨fun _ t ht hst => ?_, fun _ => .inl rfl⟩
        rcases mem_cons.mp ht with rfl | ht
        · exact hp
        · exact absurd (hx t ht) (Nat.not_lt_of_ge hst)
      · rw [ih hl hs]
        constructor
        · intro h t ht hst
          rcases h with rfl | h
          · exact absurd (hx s ‹s ∈ l›) (lt_irrefl s)
          · rcases mem_cons.mp ht with rfl | ht
            · exact hp
            · exact h t ht hst
        · exact fun h => .inr fun t ht hst => h t (mem_cons_of_mem x ht) hst
    · rw [if_neg hp]
      refine ⟨fun h => absurd h not_mem_nil, fun h => absurd (h x mem_cons_self ?_) hp⟩
      rcases mem_cons.mp hs with rfl | hs
      · exact le_rfl
      · exact (hx s hs).le

/-- **The first pass.** -/
theorem collectPass_eq {f : Fsm} {sed : ℕ → ℕ} {env : MinEnv}
    (h : InitialEcs f.statecount sed env) (hs : s < f.statecount) :
    collectPass f env.ecs s = collected f sed s := by
  have hiff : (∃ ec ∈ env.ecs, s ∈ ec.states.takeWhile (hasEndMetadata f)) ↔
      ∀ t < f.statecount, sed t = sed s → s ≤ t → hasEndMetadata f t = true := by
    obtain ⟨c, hc, hsc⟩ := h.linked.divides.exists_mem_iff.mpr hs
    have hmem := mem_takeWhile_descending (p := hasEndMetadata f) (h.descending c hc) hsc
    -- the states of its EC are those with its distance
    have hclass : ∀ t, t ∈ c ↔ t < f.statecount ∧ sed t = sed s := by
      intro t
      constructor
      · intro ht
        have htlt := h.linked.divides.lt hc ht
        exact ⟨htlt, (h.together t htlt s hs).mp ⟨c, hc, ht, hsc⟩⟩
      · intro ⟨ht, hts⟩
        obtain ⟨d, hd, htd, hsd⟩ := (h.together t ht s hs).mpr hts
        exact h.linked.divides.class_eq hd hc hsd hsc ▸ htd
    constructor
    · intro ⟨ec, hec, hsw⟩ t ht hts hst
      have hecc : ec.states = c := h.linked.divides.class_eq (mem_map_of_mem hec) hc
        ((takeWhile_subset _) hsw) hsc
      rw [hecc] at hsw
      exact hmem.mp hsw t ((hclass t).mpr ⟨ht, hts⟩) hst
    · intro hall
      obtain ⟨ec, hec, rfl⟩ := mem_map.mp hc
      refine ⟨ec, hec, hmem.mpr fun t ht hst => ?_⟩
      exact hall t ((hclass t).mp ht).1 ((hclass t).mp ht).2 hst
  rw [collectPass, foldl_eq_ite (fun endMd : ℕ → EndMetadata => endMd s) fun _ _ => by
    rw [foldl_update_eq], collected]
  simp only [hiff]

/-- There are at least as many buckets as states. -/
theorem le_bucketCountLoop {n : ℕ} (fuel bucketCount : ℕ) (h : n ≤ 2 ^ fuel * bucketCount) :
    n ≤ bucketCountLoop fuel bucketCount n := by
  induction fuel generalizing bucketCount with
  | zero => simpa [bucketCountLoop] using h
  | succ fuel ih =>
    rw [bucketCountLoop]
    split
    · exact ih (2 * bucketCount) (by rw [pow_succ, mul_assoc] at h; exact h)
    · rename_i hge
      exact Nat.le_of_not_lt hge

/-! ## §2 One Class -/

theorem linkAfter_perm {other : ℕ} (h : other ∈ l) (s : ℕ) :
    (linkAfter other s l).Perm (s :: l) := by
  induction l with
  | nil => cases h
  | cons x l ih =>
    rw [linkAfter]
    split
    · exact List.Perm.swap s x l
    · rename_i hx
      have hl : other ∈ l := (mem_cons.mp h).resolve_left fun heq => hx heq.symm
      exact ((ih hl).cons x).trans (List.Perm.swap s x l)

theorem modify_append_right {α : Type*} (l₁ l₂ : List α) (j : ℕ) (g : α → α) :
    (l₁ ++ l₂).modify (l₁.length + j) g = l₁ ++ l₂.modify j g := by
  induction l₁ with
  | nil => simp
  | cons x l₁ ih => simpa [add_right_comm] using ih

/-- The second pass inside of the EC `ecI`, after the states `done`: those that stay and the new
ECs behind are told apart by their metadata, and the table has one state of each. -/
structure SplitInv (endMd : ℕ → EndMetadata) (env₀ : MinEnv) (ecI : ℕ) (done : List ℕ)
    (st : SplitState) (news : List (List ℕ)) : Prop where
  classes : st.env.classes = env₀.classes ++ news
  perm : (st.kept ++ news.flatten).Perm done
  news_ne : ∀ c ∈ news, c ≠ []
  kept_ne : st.kept = [] → done = []
  kept_link : ∀ s ∈ st.kept, st.env.stateEcs s = some ecI
  news_link : ∀ {j c}, news[j]? = some c →
    ∀ s ∈ c, st.env.stateEcs s = some (env₀.ecs.length + j)
  same : ∀ s ∈ done, ∀ t ∈ done, st.env.stateEcs s = st.env.stateEcs t ↔ endMd s = endMd t
  other : ∀ s ∉ done, st.env.stateEcs s = env₀.stateEcs s
  table : Represents endMd metadataHash st.htab fun md => done.find? fun s => endMd s = md
  used : usedBuckets st.htab ≤ done.length
  doneEcOffset : st.env.doneEcOffset = env₀.doneEcOffset

namespace SplitInv

variable {endMd : ℕ → EndMetadata} {env₀ : MinEnv} {ecI : ℕ} {done : List ℕ} {st : SplitState}
  {news : List (List ℕ)}

theorem init (endMd : ℕ → EndMetadata) (env₀ : MinEnv) (ecI bucketCount : ℕ) :
    SplitInv endMd env₀ ecI []
      { env := env₀, htab := replicate bucketCount none, kept := [] } [] := by
  refine ⟨by simp, by simp, by simp, fun _ => rfl, by simp, by simp, by simp, fun _ _ => rfl, ?_,
    ?_, rfl⟩
  · exact Represents.replicate endMd metadataHash bucketCount
  · simp [usedBuckets]

/-- A state that was looked at stays or is in a new EC. -/
theorem link_cases (h : SplitInv endMd env₀ ecI done st news) (hs : s ∈ done) :
    (s ∈ st.kept ∧ st.env.stateEcs s = some ecI) ∨
      ∃ j c, news[j]? = some c ∧ s ∈ c ∧ st.env.stateEcs s = some (env₀.ecs.length + j) := by
  rcases mem_append.mp (h.perm.mem_iff.mpr hs) with hk | hn
  · exact .inl ⟨hk, h.kept_link s hk⟩
  · obtain ⟨c, hc, hsc⟩ := mem_flatten.mp hn
    obtain ⟨j, hj⟩ := mem_iff_getElem?.mp hc
    exact .inr ⟨j, c, hj, hsc, h.news_link hj s hsc⟩

/-- `done` with one state more, in front. -/
theorem perm_concat {done : List ℕ} (h : l.Perm done) : (s :: l).Perm (done ++ [s]) :=
  (h.cons s).trans (perm_append_singleton s done).symm

/-- The table after a state whose metadata is known already. -/
theorem find?_concat_of_isSome (ho : done.find? (fun t => endMd t = endMd s) = some o) :
    (fun md => (done ++ [s]).find? fun t => endMd t = md) =
      fun md => done.find? fun t => endMd t = md := by
  funext md
  rw [find?_append]
  by_cases hmd : endMd s = md
  · rw [← hmd, ho]
    rfl
  · simp [hmd]

/-- The table after a state with new metadata. -/
theorem find?_concat_of_eq_none (hs : done.find? (fun t => endMd t = endMd s) = none) :
    (fun md => (done ++ [s]).find? fun t => endMd t = md) =
      update (fun md => done.find? fun t => endMd t = md) (endMd s) (some s) := by
  funext md
  rw [find?_append, update_apply]
  by_cases hmd : md = endMd s
  · rw [hmd, hs]
    simp
  · rw [if_neg hmd]
    simp [Ne.symm hmd]

/-- What `stateEcs` says about all states so far, once `s` has its EC. -/
theorem same_concat {links : ℕ → Option ℕ}
    (hsame : ∀ t ∈ done, ∀ u ∈ done, links t = links u ↔ endMd t = endMd u)
    (hs : ∀ t ∈ done, links t = links s ↔ endMd t = endMd s) :
    ∀ t ∈ done ++ [s], ∀ u ∈ done ++ [s], links t = links u ↔ endMd t = endMd u := by
  intro t ht u hu
  rcases mem_append.mp ht with ht | ht
  · rcases mem_append.mp hu with hu | hu
    · exact hsame t ht u hu
    · rw [mem_singleton.mp hu]
      exact hs t ht
  · rw [mem_singleton.mp ht]
    rcases mem_append.mp hu with hu | hu
    · rw [eq_comm, hs u hu, eq_comm]
    · rw [mem_singleton.mp hu]
      exact ⟨fun _ => rfl, fun _ => rfl⟩

section Step

variable (h : SplitInv endMd env₀ ecI done st news) {s : ℕ} (hs : s ∉ done)
  (hlink : env₀.stateEcs s = some ecI)
include h

theorem mem_done (ht : t ∈ st.kept ++ news.flatten) : t ∈ done := h.perm.mem_iff.mp ht

theorem mem_done_of_news {j : ℕ} {c : List ℕ} (hj : news[j]? = some c) (ht : t ∈ c) : t ∈ done :=
  h.perm.mem_iff.mp (mem_append_right _
    (mem_flatten.mpr ⟨c, mem_of_getElem? hj, ht⟩))

theorem update_other (ec : Option ℕ) (ht : t ∉ done ++ [s]) :
    update st.env.stateEcs s ec t = env₀.stateEcs t := by
  obtain ⟨htd, hts⟩ : t ∉ done ∧ t ≠ s := by simpa using ht
  rw [update_of_ne hts]
  exact h.other t htd

/-- The first state of the EC stays. -/
theorem first (hlinkS : st.env.stateEcs s = some ecI) (hkept : st.kept = [])
    {htab : List (Option ℕ)}
    (htable : Represents endMd metadataHash htab fun md =>
      (done ++ [s]).find? fun t => endMd t = md)
    (hused : usedBuckets htab ≤ (done ++ [s]).length) :
    SplitInv endMd env₀ ecI (done ++ [s]) { st with htab := htab, kept := [s] } news := by
  have hdone := h.kept_ne hkept
  have hnews : news.flatten = [] := by
    have hperm := h.perm
    rw [hkept, hdone] at hperm
    exact hperm.eq_nil
  refine ⟨h.classes, ?_, h.news_ne, ?_, ?_, h.news_link, ?_, ?_, htable, hused, h.doneEcOffset⟩
  · rw [hnews, hdone]
    rfl
  · exact fun habs => absurd habs (cons_ne_nil s [])
  · intro t ht
    exact mem_singleton.mp ht ▸ hlinkS
  · apply same_concat h.same
    rw [hdone]
    exact fun t ht => absurd ht not_mem_nil
  · intro t ht
    exact h.other t fun hmem => ht (mem_append_left _ hmem)

/-- A state stays with one that stayed. -/
theorem stay (hlinkS : st.env.stateEcs s = some ecI) (ho : o ∈ done)
    (hmd : endMd o = endMd s) (hstay : st.env.stateEcs o = some ecI)
    (htable : Represents endMd metadataHash st.htab fun md =>
      (done ++ [s]).find? fun t => endMd t = md)
    (hused : usedBuckets st.htab ≤ (done ++ [s]).length) :
    SplitInv endMd env₀ ecI (done ++ [s]) { st with kept := st.kept ++ [s] } news := by
  refine ⟨h.classes, ?_, h.news_ne, ?_, ?_, h.news_link, ?_, ?_, htable, hused, h.doneEcOffset⟩
  · rw [append_assoc]
    exact perm_middle.trans (perm_concat h.perm)
  · exact fun habs => absurd habs (append_ne_nil_of_right_ne_nil _ (cons_ne_nil s []))
  · intro t ht
    rcases mem_append.mp ht with ht | ht
    · exact h.kept_link t ht
    · exact mem_singleton.mp ht ▸ hlinkS
  · apply same_concat h.same
    intro t ht
    rw [hlinkS, ← hstay, h.same t ht o ho, hmd]
  · intro t ht
    exact h.other t fun hmem => ht (mem_append_left _ hmem)

include hs

omit h in
/-- Other states keep their EC when `s` gets a new one. -/
theorem update_link (ec : Option ℕ) (ht : t ∈ done) :
    update st.env.stateEcs s ec t = st.env.stateEcs t :=
  update_of_ne (fun heq : t = s => hs (heq ▸ ht)) _ _

theorem update_same (ec : Option ℕ)
    (hec : ∀ t ∈ done, st.env.stateEcs t = ec ↔ endMd t = endMd s) :
    ∀ t ∈ done ++ [s], ∀ u ∈ done ++ [s], update st.env.stateEcs s ec t =
      update st.env.stateEcs s ec u ↔ endMd t = endMd u := by
  apply same_concat
  · intro t ht u hu
    rw [update_link hs ec ht, update_link hs ec hu]
    exact h.same t ht u hu
  · intro t ht
    rw [update_link hs ec ht, update_self]
    exact hec t ht

/-- A state with new metadata starts a new EC. -/
theorem start (hec : ecI < env₀.ecs.length) (hnew : ∀ t ∈ done, endMd t ≠ endMd s)
    (hkept : st.kept ≠ []) {htab : List (Option ℕ)}
    (htable : Represents endMd metadataHash htab fun md =>
      (done ++ [s]).find? fun t => endMd t = md)
    (hused : usedBuckets htab ≤ (done ++ [s]).length) :
    SplitInv endMd env₀ ecI (done ++ [s])
      { st with
        htab := htab
        env :=
          { st.env with
            ecs := st.env.ecs ++ [{ states := [s] }]
            stateEcs := update st.env.stateEcs s (some st.env.ecs.length) } }
      (news ++ [[s]]) := by
  have hlast : env₀.ecs.length + news.length = st.env.ecs.length := by
    rw [← MinEnv.length_classes, ← MinEnv.length_classes, h.classes, length_append]
  -- no state so far links to the EC that is made here
  have hold : ∀ t ∈ done, st.env.stateEcs t ≠ some st.env.ecs.length := by
    intro t ht heq
    rcases h.link_cases ht with ⟨-, hk⟩ | ⟨j, c, hj, -, hn⟩
    · rw [hk, some.injEq] at heq
      omega
    · rw [hn, some.injEq] at heq
      have hjlt := (List.getElem?_eq_some_iff.mp hj).1
      omega
  refine ⟨?_, ?_, ?_, ?_, ?_, ?_, ?_, ?_, htable, hused, h.doneEcOffset⟩
  · have hmap : (st.env.ecs ++ [({ states := [s] } : Ec)]).map Ec.states =
        st.env.classes ++ [[s]] := map_append
    exact hmap.trans (by rw [h.classes, append_assoc])
  · rw [flatten_append, ← append_assoc]
    exact h.perm.append_right [s]
  · intro c hc
    rcases mem_append.mp hc with hc | hc
    · exact h.news_ne c hc
    · rw [List.mem_singleton.mp hc]
      exact cons_ne_nil s []
  · exact fun habs => absurd habs hkept
  · intro t ht
    exact (update_link hs _ (h.mem_done (mem_append_left _ ht))).trans (h.kept_link t ht)
  · intro j c hj t ht
    rcases lt_or_ge j news.length with hjlt | hjge
    · rw [getElem?_append_left hjlt] at hj
      exact (update_link hs _ (h.mem_done_of_news hj ht)).trans (h.news_link hj t ht)
    · rw [getElem?_append_right hjge, getElem?_singleton] at hj
      split at hj
      · rw [← some.inj hj] at ht
        rw [mem_singleton.mp ht]
        change update st.env.stateEcs s _ s = _
        rw [update_self]
        congr 2
        omega
      · cases hj
  · apply h.update_same hs
    intro t ht
    exact ⟨fun heq => absurd heq (hold t ht), fun heq => absurd heq (hnew t ht)⟩
  · exact fun t ht => h.update_other _ ht

/-- A state goes after one in a new EC. -/
theorem join (ho : o ∈ done) (hmd : endMd o = endMd s)
    (hstay : st.env.stateEcs o ≠ some ecI)
    (htable : Represents endMd metadataHash st.htab fun md =>
      (done ++ [s]).find? fun t => endMd t = md)
    (hused : usedBuckets st.htab ≤ (done ++ [s]).length) :
    ∃ news', SplitInv endMd env₀ ecI (done ++ [s])
      { st with
        env :=
          { st.env with
            ecs := st.env.ecs.modify ((st.env.stateEcs o).getD 0) fun e =>
              { e with states := linkAfter o s e.states }
            stateEcs := update st.env.stateEcs s (st.env.stateEcs o) } } news' := by
  obtain ⟨j, c, hj, hoc, hlinkO⟩ : ∃ j c, news[j]? = some c ∧ o ∈ c ∧
      st.env.stateEcs o = some (env₀.ecs.length + j) :=
    (h.link_cases ho).resolve_left fun hk => hstay hk.2
  have hperm := linkAfter_perm hoc s
  -- `s` is linked after `o`, in the EC that `o` went to
  refine ⟨news.modify j (linkAfter o s), ⟨?_, ?_, ?_, ?_, ?_, ?_, ?_, ?_, htable, hused,
    h.doneEcOffset⟩⟩
  · have hmap := MinEnv.map_states_modify st.env.ecs ((st.env.stateEcs o).getD 0) (linkAfter o s)
    refine hmap.trans ?_
    rw [hlinkO, ← MinEnv.classes, h.classes, ← MinEnv.length_classes]
    exact modify_append_right _ _ j _
  · have hflat := flatten_modify_perm hj hperm
    exact (hflat.append_left st.kept).trans (perm_middle.trans (perm_concat h.perm))
  · intro d hd
    obtain ⟨i, hi⟩ := mem_iff_getElem?.mp hd
    rw [getElem?_modify] at hi
    obtain ⟨e, he, rfl⟩ := map_eq_some_iff.mp hi
    split
    · rename_i hji
      cases hj.symm.trans (hji ▸ he)
      exact ne_nil_of_mem (hperm.mem_iff.mpr mem_cons_self)
    · exact h.news_ne e (mem_of_getElem? he)
  · exact fun habs => absurd (h.kept_ne habs) (ne_nil_of_mem ho)
  · intro t ht
    exact (update_link hs _ (h.mem_done (mem_append_left _ ht))).trans (h.kept_link t ht)
  · intro i d hi t ht
    rw [getElem?_modify] at hi
    obtain ⟨e, he, rfl⟩ := map_eq_some_iff.mp hi
    split at ht
    · rename_i hji
      cases hj.symm.trans (hji ▸ he)
      rcases mem_cons.mp (hperm.mem_iff.mp ht) with rfl | ht
      · change update st.env.stateEcs t _ t = _
        rw [update_self, hlinkO, hji]
      · exact (update_link hs _ (h.mem_done_of_news he ht)).trans (h.news_link he t ht)
    · exact (update_link hs _ (h.mem_done_of_news he ht)).trans (h.news_link he t ht)
  · apply h.update_same hs
    intro t ht
    rw [h.same t ht o ho, hmd]
  · exact fun t ht => h.update_other _ ht

include hlink

/-- **One state.** -/
theorem step (hec : ecI < env₀.ecs.length) (hroom : done.length < st.htab.length) :
    (∃ news', SplitInv endMd env₀ ecI (done ++ [s]) (splitState endMd ecI st s) news') ∧
      (splitState endMd ecI st s).htab.length = st.htab.length := by
  have hused := h.used.trans_lt hroom
  obtain ⟨b, hb, hprobe, hbucket, hplace⟩ := h.table.exists_probe_key hused (endMd s)
  have hlinkS : st.env.stateEcs s = some ecI := (h.other s hs).trans hlink
  rw [splitState, hprobe]
  dsimp only
  rw [hbucket]
  cases hfind : done.find? fun t => decide (endMd t = endMd s) with
  | none =>
    -- the first state with its metadata: it stays, or starts an EC
    have hnew : ∀ t ∈ done, endMd t ≠ endMd s := by
      intro t ht
      simpa using find?_eq_none.mp hfind t ht
    obtain ⟨htable, hlen, hcount⟩ := h.table.place (e := s) hfind hused
    rw [hplace hfind s] at htable hlen hcount
    rw [← find?_concat_of_eq_none hfind] at htable
    have hcount' : usedBuckets (st.htab.set b (some s)) ≤ (done ++ [s]).length := by
      rw [hcount, length_append]
      exact Nat.add_le_add_right h.used 1
    dsimp only
    split
    · rename_i hkept
      exact ⟨⟨news, h.first hlinkS hkept htable hcount'⟩, hlen⟩
    · rename_i hkept
      exact ⟨⟨news ++ [[s]], h.start hs hec hnew hkept htable hcount'⟩, hlen⟩
  | some o =>
    -- a state with the same metadata was found: it goes where that one is
    have ho : o ∈ done := mem_of_find?_eq_some hfind
    have hmd : endMd o = endMd s := by simpa using find?_some hfind
    have htable := h.table
    rw [← find?_concat_of_isSome hfind] at htable
    have hcount' : usedBuckets st.htab ≤ (done ++ [s]).length := by
      rw [length_append]
      exact h.used.trans (Nat.le_add_right _ _)
    dsimp only
    split
    · rename_i hstay
      exact ⟨⟨news, h.stay hlinkS ho hmd hstay htable hcount'⟩, rfl⟩
    · rename_i hstay
      exact ⟨h.join hs ho hmd hstay htable hcount', rfl⟩

end Step

/-- **All states** of an EC. -/
theorem foldl (hec : ecI < env₀.ecs.length) (hnodup : (done ++ l).Nodup)
    (hlink : ∀ s ∈ l, env₀.stateEcs s = some ecI) (hroom : (done ++ l).length ≤ st.htab.length)
    (h : SplitInv endMd env₀ ecI done st news) :
    ∃ news', SplitInv endMd env₀ ecI (done ++ l) (l.foldl (splitState endMd ecI) st) news' := by
  induction l generalizing done st news with
  | nil => exact ⟨news, (append_nil done).symm ▸ h⟩
  | cons s l ih =>
    have hassoc : done ++ s :: l = done ++ [s] ++ l := append_cons done s l
    have hs : s ∉ done := fun hmem =>
      (nodup_append.mp hnodup).2.2 s hmem s mem_cons_self rfl
    have hlt : done.length < st.htab.length := by
      rw [length_append, length_cons] at hroom
      omega
    obtain ⟨⟨news', hstep⟩, hlen⟩ := h.step hs (hlink s mem_cons_self) hec hlt
    rw [hassoc] at hnodup hroom ⊢
    exact ih hnodup (fun t ht => hlink t (mem_cons_of_mem s ht)) (hlen.symm ▸ hroom) hstep

end SplitInv

/-- What the second pass does at the EC `ecI`. -/
structure EcSplit (n : ℕ) (endMd : ℕ → EndMetadata) (ecI : ℕ) (env env' : MinEnv) : Prop where
  linked : EcLinked n env'
  length_le : env.ecs.length ≤ env'.ecs.length
  rest : ∀ j < env.ecs.length, j ≠ ecI → env'.classes[j]? = env.classes[j]?
  together : ∀ s t, Together env'.classes s t ↔
    Together env.classes s t ∧ (s ∈ (env.ec ecI).states → endMd s = endMd t)
  done_le : env'.doneEcOffset ≤ env.doneEcOffset

section SplitEc

variable {n : ℕ} {endMd : ℕ → EndMetadata} {env : MinEnv} {ecI : ℕ}

/-- States of the EC are in the same part if their metadata is the same. -/
theorem SplitInv.together_iff {st : SplitState} {news : List (List ℕ)} {done : List ℕ}
    (h : SplitInv endMd env ecI done st news) (hec : ecI < env.ecs.length) (hs : s ∈ done)
    (ht : t ∈ done) : Together (st.kept :: news) s t ↔ endMd s = endMd t := by
  rw [← h.same s hs t ht]
  constructor
  · intro ⟨c, hc, hsc, htc⟩
    rcases mem_cons.mp hc with rfl | hc
    · rw [h.kept_link s hsc, h.kept_link t htc]
    · obtain ⟨j, hj⟩ := mem_iff_getElem?.mp hc
      rw [h.news_link hj s hsc, h.news_link hj t htc]
  · intro heq
    rcases h.link_cases hs with ⟨hsk, hsl⟩ | ⟨j, c, hj, hsc, hsl⟩
    · rcases h.link_cases ht with ⟨htk, -⟩ | ⟨j', c', -, -, htl⟩
      · exact ⟨st.kept, mem_cons_self, hsk, htk⟩
      · rw [hsl, htl, some.injEq] at heq
        omega
    · rcases h.link_cases ht with ⟨-, htl⟩ | ⟨j', c', hj', htc, htl⟩
      · rw [hsl, htl, some.injEq] at heq
        omega
      · rw [hsl, htl, some.injEq, Nat.add_left_cancel_iff] at heq
        rw [← heq, hj] at hj'
        exact ⟨c, mem_cons_of_mem _ (mem_of_getElem? hj), hsc,
          (some.inj hj').symm ▸ htc⟩

theorem SplitInv.ecSplit {st : SplitState} {news : List (List ℕ)}
    (h : SplitInv endMd env ecI (env.ec ecI).states st news) (hlinked : EcLinked n env)
    (hec : ecI < env.ecs.length) (hclasses : env'.classes = env.classes.set ecI st.kept ++ news)
    (hlinks : env'.stateEcs = st.env.stateEcs) (hdone : env'.doneEcOffset ≤ env.doneEcOffset) :
    EcSplit n endMd ecI env env' := by
  have hget := MinEnv.getElem?_classes hec
  have hmem := MinEnv.ec_mem hec
  have hlen : (env.classes.set ecI st.kept).length = env.ecs.length := by simp
  have hkept : st.kept ≠ [] := fun hnil => hlinked.divides.nonempty _ hmem (h.kept_ne hnil)
  have hrest : ∀ j < env.ecs.length, j ≠ ecI → env'.classes[j]? = env.classes[j]? := by
    intro j hj hne
    rw [hclasses, getElem?_append_left (hlen.symm ▸ hj), getElem?_set_ne hne.symm]
  refine ⟨⟨?_, fun {j c} _ hj s hs => ?_, fun s hs => ?_⟩, ?_, hrest, fun s t => ?_, hdone⟩
  · rw [hclasses]
    exact hlinked.divides.split hget h.perm hkept h.news_ne
  · rw [hlinks]
    rcases lt_or_ge j env.ecs.length with hjlt | hjge
    · by_cases hje : j = ecI
      · rw [hclasses, getElem?_append_left (hlen.symm ▸ hjlt), hje, getElem?_set_self
          (by simpa using hec)] at hj
        rw [← some.inj hj] at hs
        exact hje ▸ h.kept_link s hs
      · -- a state of another EC was not looked at
        rw [hrest j hjlt hje] at hj
        rw [h.other s fun hsec => hje (hlinked.divides.index_eq hj hget hs hsec)]
        exact hlinked.link (Set.notMem_empty j) hj s hs
    · rw [hclasses, getElem?_append_right (hlen.symm ▸ hjge), hlen] at hj
      rw [h.news_link hj s hs, Nat.add_sub_cancel' hjge]
  · rw [hlinks, h.other s fun hsec => Nat.not_lt_of_ge hs (hlinked.divides.lt hmem hsec)]
    exact hlinked.dead s hs
  · rw [← MinEnv.length_classes env', hclasses, length_append, hlen]
    exact Nat.le_add_right _ _
  · rw [hclasses, together_split hlinked.divides hget h.perm]
    apply and_congr_right
    intro ⟨c, hc, hsc, htc⟩
    apply imp_congr_right
    intro hsec
    have htec : t ∈ (env.ec ecI).states := hlinked.divides.class_eq hc hmem hsc hsec ▸ htc
    exact h.together_iff hec hsec htec

/-- **The second pass at one EC.** -/
theorem splitEc_spec {bucketCount : ℕ} (h : EcLinked n env) (hec : ecI < env.ecs.length)
    (hroom : n ≤ bucketCount) : EcSplit n endMd ecI env (splitEc endMd bucketCount env ecI) := by
  have hmem := MinEnv.ec_mem hec
  have hnodup := h.divides.class_nodup hmem
  have hlen : (env.ec ecI).states.length ≤ bucketCount := by
    apply le_trans _ hroom
    have hsub : (env.ec ecI).states ⊆ range n := fun s hs =>
      mem_range.mpr (h.divides.lt hmem hs)
    simpa using (subperm_of_subset hnodup hsub).length_le
  obtain ⟨news, hinv⟩ := (SplitInv.init endMd env ecI bucketCount).foldl hec
    (l := (env.ec ecI).states) (by simpa using hnodup)
    (h.link (Set.notMem_empty ecI) (MinEnv.getElem?_classes hec)) (by simpa using hlen)
  rw [splitEc]
  set r := (env.ec ecI).states.foldl (splitState endMd ecI)
    { env := env, htab := replicate bucketCount none, kept := [] } with hr
  have hclasses : (r.env.ecs.modify ecI fun e => { e with states := r.kept }).map Ec.states =
      env.classes.set ecI r.kept ++ news := by
    rw [MinEnv.map_states_modify _ _ fun _ => r.kept, ← MinEnv.classes, hinv.classes,
      ← set_eq_modify, set_append_left _ _ (by simpa using hec)]
  split
  · rename_i hsmall
    exact hinv.ecSplit h hec hclasses rfl (hsmall.2.le.trans_eq hinv.doneEcOffset)
  · exact hinv.ecSplit h hec hclasses rfl hinv.doneEcOffset.le

end SplitEc

/-! ## §3 All Classes -/

section Passes

variable {n : ℕ} {endMd : ℕ → EndMetadata} {env : MinEnv}

/-- The second pass after the first `k` ECs: these are split, and the others are as before. -/
structure EcsSplit (n : ℕ) (endMd : ℕ → EndMetadata) (k : ℕ) (env env' : MinEnv) : Prop where
  linked : EcLinked n env'
  length_le : env.ecs.length ≤ env'.ecs.length
  rest : ∀ j, k ≤ j → j < env.ecs.length → env'.classes[j]? = env.classes[j]?
  together : ∀ s t, Together env'.classes s t ↔
    Together env.classes s t ∧ ((∃ i < k, s ∈ (env.ec i).states) → endMd s = endMd t)
  done_le : env'.doneEcOffset ≤ env.doneEcOffset

theorem EcsSplit.step {k : ℕ} {env'' : MinEnv} (h : EcsSplit n endMd k env env')
    (hk : k < env.ecs.length) (hsplit : EcSplit n endMd k env' env'') :
    EcsSplit n endMd (k + 1) env env'' := by
  have hec : (env'.ec k).states = (env.ec k).states :=
    MinEnv.ec_states ((h.rest k le_rfl hk).trans (MinEnv.getElem?_classes hk))
  refine ⟨hsplit.linked, h.length_le.trans hsplit.length_le, fun j hkj hj => ?_, fun s t => ?_,
    hsplit.done_le.trans h.done_le⟩
  · rw [hsplit.rest j (hj.trans_le h.length_le) (ne_of_gt hkj), h.rest j (le_of_lt hkj) hj]
  · rw [hsplit.together, h.together, hec, and_assoc]
    apply and_congr_right
    intro _
    constructor
    · intro ⟨hbefore, hat⟩ ⟨i, hi, hsi⟩
      rcases Nat.lt_succ_iff_lt_or_eq.mp hi with hlt | rfl
      · exact hbefore ⟨i, hlt, hsi⟩
      · exact hat hsi
    · intro hall
      exact ⟨fun ⟨i, hi, hsi⟩ => hall ⟨i, Nat.lt_succ_of_lt hi, hsi⟩,
        fun hsk => hall ⟨k, Nat.lt_succ_self k, hsk⟩⟩

/-- **The second pass.** -/
theorem ecsSplit_foldl (endMd : ℕ → EndMetadata) {bucketCount : ℕ} (h : EcLinked n env)
    (hroom : n ≤ bucketCount) :
    ∀ k ≤ env.ecs.length, EcsSplit n endMd k env
      ((range k).foldl (splitEc endMd bucketCount) env) := by
  intro k
  induction k with
  | zero =>
    exact fun _ => ⟨h, le_rfl, fun _ _ _ => rfl, fun s t => by simp, le_rfl⟩
  | succ k ih =>
    intro hk
    rw [range_succ, foldl_append]
    have ih := ih (le_of_lt hk)
    exact ih.step hk (splitEc_spec ih.linked (lt_of_lt_of_le hk ih.length_le) hroom)

/-- The sweep before the EC `i`: those from `doneEcOffset` on have one state. -/
structure Swept (n i : ℕ) (env env' : MinEnv) : Prop where
  linked : EcLinked n env'
  length : env'.ecs.length = env.ecs.length
  perm : env'.classes.Perm env.classes
  done_le : env'.doneEcOffset ≤ i
  single : ∀ {j c}, env'.doneEcOffset ≤ j → j < i → env'.classes[j]? = some c → c.tail = []

theorem Swept.step {i : ℕ} (h : Swept n i env env') (hi : i < env.ecs.length) (k : ℕ) :
    Swept n (i + 1) env (sweepEc k env' i) := by
  have hlt : i < env'.ecs.length := h.length.symm ▸ hi
  have hdone : env'.doneEcOffset < env'.ecs.length := h.done_le.trans_lt hlt
  rw [sweepEc]
  split
  · -- the flag does not matter
    rename_i htail
    have hclasses : (env'.ecs.set i { env'.ec i with small := true }).map Ec.states =
        env'.classes := by
      obtain ⟨hlt', hval⟩ := List.getElem?_eq_some_iff.mp (MinEnv.getElem?_classes hlt)
      rw [map_set, ← MinEnv.classes, ← hval, set_getElem_self]
    refine ⟨h.linked.congr hclasses rfl, ?_, ?_, h.done_le.trans (Nat.le_succ i), ?_⟩
    · exact length_set.trans h.length
    · exact (List.Perm.of_eq hclasses).trans h.perm
    · intro j c hj hji hc
      have hold : env'.classes[j]? = some c := hclasses ▸ hc
      rcases Nat.lt_succ_iff_lt_or_eq.mp hji with hlt' | rfl
      · exact h.single hj hlt' hold
      · rw [← MinEnv.ec_states hold, htail]
  · refine ⟨?_, ?_, ?_, Nat.succ_le_succ h.done_le, ?_⟩
    · exact (h.linked.move (fun l hl => absurd hl (Set.notMem_empty l)) hlt hdone k).congr rfl rfl
    · exact (length_ecs_moveEc k env' _ _).trans h.length
    · exact (perm_moveEc k hlt hdone).trans h.perm
    · intro j c hj hji hc
      have hj : env'.doneEcOffset < j := hj
      have hc : (moveEc k env' i env'.doneEcOffset).classes[j]? = some c := hc
      rw [getElem?_classes_moveEc k hlt hdone, if_neg hj.ne'] at hc
      rcases Nat.lt_succ_iff_lt_or_eq.mp hji with hlt' | rfl
      · rw [if_neg hlt'.ne] at hc
        exact h.single hj.le hlt' hc
      · -- what was swapped to `i` was before it and had one state
        rw [if_pos rfl] at hc
        exact h.single le_rfl hj ((MinEnv.getElem?_classes hdone).trans hc)

/-- **The sweep.** -/
theorem swept_foldl (h : EcLinked n env) (hdone : env.doneEcOffset ≤ env.ecs.length) (k : ℕ) :
    Swept n env.ecs.length env ((range' env.doneEcOffset
      (env.ecs.length - env.doneEcOffset)).foldl (sweepEc k) env) := by
  have hloop : ∀ m, env.doneEcOffset + m ≤ env.ecs.length → Swept n (env.doneEcOffset + m) env
      ((range' env.doneEcOffset m).foldl (sweepEc k) env) := by
    intro m
    induction m with
    | zero =>
      exact fun _ => ⟨h, rfl, List.Perm.refl _, le_rfl,
        fun hj hji => absurd hj (Nat.not_le_of_gt hji)⟩
    | succ m ih =>
      intro hm
      rw [List.range'_concat, foldl_append, one_mul]
      exact (ih (le_of_lt hm)).step hm k
  have hend := hloop (env.ecs.length - env.doneEcOffset)
    (Nat.add_sub_cancel' hdone).le
  rwa [Nat.add_sub_cancel' hdone] at hend

/-- **Splitting by end metadata**: states stay together if they are equally far from an end and
the same metadata was collected for them. -/
theorem splitEcsByEndMetadata_spec {f : Fsm} {sed : ℕ → ℕ} (h : InitialEcs f.statecount sed env)
    (k : ℕ) : EcInv f.statecount (splitEcsByEndMetadata k f env) ∧
      ∀ s < f.statecount, ∀ t < f.statecount,
        Together (splitEcsByEndMetadata k f env).classes s t ↔
          sed s = sed t ∧ collected f sed s = collected f sed t := by
  have hroom : f.statecount ≤ bucketCountLoop f.statecount 1 f.statecount := by
    apply le_bucketCountLoop
    rw [mul_one]
    exact Nat.lt_two_pow_self.le
  have hsplit := ecsSplit_foldl (collectPass f env.ecs) h.linked hroom env.ecs.length le_rfl
  rw [splitEcsByEndMetadata]
  have hswept :=
    swept_foldl hsplit.linked ((hsplit.done_le.trans h.done_le).trans hsplit.length_le) k
  refine ⟨⟨hswept.linked, ?_, fun {i c} hi hc => ?_⟩, fun s hs t ht => ?_⟩
  · exact hswept.done_le.trans_eq hswept.length.symm
  · exact hswept.single hi (hswept.length ▸ MinEnv.lt_of_getElem?_classes hc) hc
  · rw [together_congr hswept.perm, hsplit.together, h.together s hs t ht, ← collectPass_eq h hs,
      ← collectPass_eq h ht]
    apply and_congr_right
    intro _
    obtain ⟨i, hi⟩ := h.linked.exists_stateEcs hs
    obtain ⟨c, hc, hsc⟩ := h.linked.stateEcs_eq_some_iff.mp hi
    refine ⟨fun himp => himp ⟨i, MinEnv.lt_of_getElem?_classes hc, ?_⟩, fun heq _ => heq⟩
    rwa [MinEnv.ec_states hc]

end Passes

end Libfsm
