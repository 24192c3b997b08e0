import Mathlib.Data.List.Sort
import Mathlib.Tactic

/-!
# Labelled Runs Of Consecutive Values

A table from `Fin n` to labels, written down as a list of runs: inclusive ranges of consecutive
values with one label each.

- `Span`, `Run`: a range, and a range with a label
- `Labels`: the table a list of runs stands for
- `Tidy`: no run is empty and no two share a value
- `joinRuns`: one pass that joins each run with the one before it where they touch; it changes
  neither the table nor tidiness
-/

namespace Libfsm.Lib

open List hiding nil cons

variable {n : ℕ} {β : Type*}

/-! ## §1 Runs -/

/-- An inclusive range. -/
structure Span (n : ℕ) where
  start : Fin n
  /-- The last value in the range -/
  stop : Fin n
  deriving DecidableEq, Repr

/-- `c` lies in the range. -/
def Span.Has (s : Span n) (c : Fin n) : Prop := s.start ≤ c ∧ c ≤ s.stop

instance (s : Span n) (c : Fin n) : Decidable (s.Has c) :=
  inferInstanceAs (Decidable (s.start ≤ c ∧ c ≤ s.stop))

/-- The range holds a value. -/
def Span.Nonempty (s : Span n) : Prop := s.start ≤ s.stop

instance (s : Span n) : Decidable s.Nonempty := inferInstanceAs (Decidable (s.start ≤ s.stop))

/-- The ranges share no value. -/
def Span.Apart (s t : Span n) : Prop := ∀ c, s.Has c → ¬ t.Has c

theorem Span.Apart.symm {s t : Span n} (h : s.Apart t) : t.Apart s := fun c ht hs => h c hs ht

/-- A range with a label. -/
structure Run (n : ℕ) (β : Type*) extends Span n where
  label : β
  deriving DecidableEq, Repr

/-- The table a list of runs stands for. -/
def Labels (l : List (Run n β)) (c : Fin n) (b : β) : Prop := ∃ r ∈ l, r.Has c ∧ r.label = b

/-- No run is empty, and no two share a value. -/
structure Tidy (l : List (Run n β)) : Prop where
  nonempty : ∀ r ∈ l, r.Nonempty
  apart : l.Pairwise fun r s => r.toSpan.Apart s.toSpan

theorem Labels.perm {l l' : List (Run n β)} (h : l.Perm l') {c : Fin n} {b : β} :
    Labels l c b ↔ Labels l' c b := by
  unfold Labels
  simp only [h.mem_iff]

theorem Tidy.perm {l l' : List (Run n β)} (h : l.Perm l') (ht : Tidy l) : Tidy l' where
  nonempty r hr := ht.nonempty r (h.mem_iff.mpr hr)
  apart := (h.pairwise_iff fun h => Span.Apart.symm h).mp ht.apart

/-- In a tidy list a value has one label at most. -/
theorem Tidy.labels_unique {l : List (Run n β)} (ht : Tidy l) {c : Fin n} {b b' : β}
    (h : Labels l c b) (h' : Labels l c b') : b = b' := by
  obtain ⟨r, hr, hc, rfl⟩ := h
  obtain ⟨s, hs, hc', rfl⟩ := h'
  have hrs : r = s := by
    by_contra hne
    have : Std.Symm fun r s : Run n β => r.toSpan.Apart s.toSpan := ⟨fun _ _ h => h.symm⟩
    exact ht.apart.forall hr hs hne c hc hc'
  rw [hrs]

/-! ## §2 Joining -/

variable [DecidableEq β] {l : List (Run n β)}

/-- `s` goes on where `r` ends, with the same label. -/
def Run.Touches (r s : Run n β) : Prop := s.label = r.label ∧ s.start.val = r.stop.val + 1

instance (r s : Run n β) : Decidable (r.Touches s) :=
  inferInstanceAs (Decidable (s.label = r.label ∧ s.start.val = r.stop.val + 1))

/-- Take in one run: join it with the last one if they touch.  The last run stands first. -/
def pushRun (acc : List (Run n β)) (s : Run n β) : List (Run n β) :=
  match acc with
  | [] => [s]
  | r :: rs => if r.Touches s then { r with stop := s.stop } :: rs else s :: r :: rs

/-- One pass over a list of runs. -/
def joinRuns (l : List (Run n β)) : List (Run n β) := (l.foldl pushRun []).reverse

omit [DecidableEq β] in
/-- The joined range is the two ranges together. -/
theorem has_join {r s : Run n β} (hr : r.Nonempty) (hs : s.Nonempty) (h : r.Touches s)
    (c : Fin n) : ({ r with stop := s.stop } : Run n β).Has c ↔ r.Has c ∨ s.Has c := by
  have h2 := h.2
  have hr' : r.start.val ≤ r.stop.val := hr
  have hs' : s.start.val ≤ s.stop.val := hs
  show (r.start.val ≤ c.val ∧ c.val ≤ s.stop.val) ↔
    (r.start.val ≤ c.val ∧ c.val ≤ r.stop.val) ∨ (s.start.val ≤ c.val ∧ c.val ≤ s.stop.val)
  omega

theorem labels_pushRun {acc : List (Run n β)} {s : Run n β} (hacc : ∀ r ∈ acc, r.Nonempty)
    (hs : s.Nonempty) {c : Fin n} {b : β} :
    Labels (pushRun acc s) c b ↔ Labels acc c b ∨ (s.Has c ∧ s.label = b) := by
  unfold pushRun
  cases acc with
  | nil => simp [Labels]
  | cons r rs =>
    dsimp only
    split
    · rename_i h
      have hjoin := has_join (hacc r mem_cons_self) hs h c
      simp only [Labels, mem_cons, exists_eq_or_imp, hjoin, h.1]
      rw [or_and_right, or_right_comm]
    · simp only [Labels, mem_cons, exists_eq_or_imp]
      rw [or_comm]

theorem tidy_pushRun {acc : List (Run n β)} {s : Run n β} (hacc : Tidy acc) (hs : s.Nonempty)
    (hapart : ∀ r ∈ acc, r.toSpan.Apart s.toSpan) : Tidy (pushRun acc s) := by
  unfold pushRun
  cases acc with
  | nil =>
    exact ⟨fun r hr => (List.mem_singleton.mp hr) ▸ hs, pairwise_singleton _ _⟩
  | cons r rs =>
    obtain ⟨hr, hrs⟩ := pairwise_cons.mp hacc.apart
    have hne := hacc.nonempty r mem_cons_self
    dsimp only
    split
    · rename_i h
      -- the run goes on where the last one stops
      have hjoin := has_join hne hs h
      refine ⟨?_, pairwise_cons.mpr ⟨?_, hrs⟩⟩
      · intro r' hr'
        rcases mem_cons.mp hr' with rfl | hr'
        · have h2 := h.2
          have hne' : r.start.val ≤ r.stop.val := hne
          have hs' : s.start.val ≤ s.stop.val := hs
          show r.start.val ≤ s.stop.val
          omega
        · exact hacc.nonempty r' (mem_cons_of_mem r hr')
      · intro r' hr' c hc hc'
        rcases (hjoin c).mp hc with hc | hc
        · exact hr r' hr' c hc hc'
        · exact hapart r' (mem_cons_of_mem r hr') c hc' hc
    · refine ⟨?_, pairwise_cons.mpr ⟨?_, hacc.apart⟩⟩
      · intro r' hr'
        rcases mem_cons.mp hr' with rfl | hr'
        · exact hs
        · exact hacc.nonempty r' hr'
      · intro r' hr'
        exact (hapart r' hr').symm

/-- Joining changes neither the table nor tidiness. -/
private theorem foldl_pushRun (acc : List (Run n β)) (h : Tidy (acc ++ l)) :
    Tidy (l.foldl pushRun acc) ∧
      ∀ c b, Labels (l.foldl pushRun acc) c b ↔ Labels acc c b ∨ Labels l c b := by
  induction l generalizing acc with
  | nil =>
    rw [append_nil] at h
    exact ⟨h, fun c b => by simp [Labels]⟩
  | cons s l ih =>
    obtain ⟨hacc, hsl, hcross⟩ := pairwise_append.mp h.apart
    have htidy : Tidy acc :=
      ⟨fun r hr => h.nonempty r (mem_append_left _ hr), hacc⟩
    have hs : s.Nonempty := h.nonempty s (mem_append_right _ mem_cons_self)
    have hpush := tidy_pushRun htidy hs fun r hr => hcross r hr s mem_cons_self
    have hlabels := fun c b => labels_pushRun (c := c) (b := b) htidy.nonempty hs
    have hnext : Tidy (pushRun acc s ++ l) := by
      refine ⟨?_, pairwise_append.mpr ⟨hpush.apart, (pairwise_cons.mp hsl).2, ?_⟩⟩
      · intro r hr
        rcases mem_append.mp hr with hr | hr
        · exact hpush.nonempty r hr
        · exact h.nonempty r (mem_append_right _ (mem_cons_of_mem s hr))
      · -- what the joined list covers was covered by the list or by `s`
        intro r hr t ht c hc hc'
        rcases (hlabels c r.label).mp ⟨r, hr, hc, rfl⟩ with ⟨r', hr', hc₁, -⟩ | ⟨hc₁, -⟩
        · exact hcross r' hr' t (mem_cons_of_mem s ht) c hc₁ hc'
        · exact (pairwise_cons.mp hsl).1 t ht c hc₁ hc'
    obtain ⟨h₁, h₂⟩ := ih _ hnext
    refine ⟨h₁, fun c b => ?_⟩
    rw [foldl_cons, h₂, hlabels]
    simp only [Labels, mem_cons, exists_eq_or_imp, or_assoc]

theorem tidy_joinRuns (h : Tidy l) : Tidy (joinRuns l) :=
  Tidy.perm (reverse_perm _).symm (foldl_pushRun [] h).1

theorem labels_joinRuns (h : Tidy l) {c : Fin n} {b : β} :
    Labels (joinRuns l) c b ↔ Labels l c b := by
  rw [joinRuns, Labels.perm (reverse_perm _), (foldl_pushRun [] h).2]
  simp [Labels]

/-! ## §3 Lists With Failure -/

/-- A list of results, each of which may fail. -/
theorem mapM_eq_some_iff {α γ : Type*} {g : α → Option γ} {l : List α} {r : List γ} :
    l.mapM g = some r ↔ Forall₂ (fun a b => g a = some b) l r := by
  induction l generalizing r with
  | nil =>
    rw [List.forall₂_nil_left_iff]
    exact ⟨fun h => (Option.some.inj h).symm, fun h => h ▸ rfl⟩
  | cons a l ih =>
    rw [mapM_cons]
    simp only [bind, pure, Option.bind_eq_some_iff, Option.some.injEq, ih,
      List.forall₂_cons_left_iff]
    constructor
    · rintro ⟨b, hb, r', hr', rfl⟩
      exact ⟨b, r', hb, hr', rfl⟩
    · rintro ⟨b, r', hb, hr', rfl⟩
      exact ⟨b, hb, r', hr', rfl⟩

/-- If no entry fails the list does not, and what is known of the results one by one holds. -/
theorem exists_mapM {α γ : Type*} {g : α → Option γ} {l : List α} :
    ∀ {Q : ℕ → α → γ → Prop}, (∀ i a, l[i]? = some a → ∃ b, g a = some b ∧ Q i a b) →
      ∃ r, l.mapM g = some r ∧ r.length = l.length ∧
        ∀ i b, r[i]? = some b → ∃ a, l[i]? = some a ∧ Q i a b := by
  induction l with
  | nil => exact fun _ => ⟨[], rfl, rfl, fun i b hb => absurd hb (by simp)⟩
  | cons a l ih =>
    intro Q h
    obtain ⟨b, hb, hQ⟩ := h 0 a rfl
    obtain ⟨r, hr, hlen, hget⟩ := ih fun i => h (i + 1)
    refine ⟨b :: r, by simp [hb, hr], by simp [hlen], fun i b' hb' => ?_⟩
    cases i with
    | zero =>
      cases hb'
      exact ⟨a, rfl, hQ⟩
    | succ i => exact hget i b' hb'

theorem forall₂_getElem? {α β : Type*} {R : α → β → Prop} {l : List α} {l' : List β}
    (h : Forall₂ R l l') {i : ℕ} {a : α} (ha : l[i]? = some a) :
    ∃ b, l'[i]? = some b ∧ R a b := by
  obtain ⟨hlen, hget⟩ := List.forall₂_iff_get.mp h
  obtain ⟨hi, rfl⟩ := List.getElem?_eq_some_iff.mp ha
  exact ⟨l'[i], List.getElem?_eq_getElem (hlen ▸ hi), hget i hi (hlen ▸ hi)⟩

end Libfsm.Lib
