import Mathlib.Algebra.Order.BigOperators.Group.Finset
import Libfsm.Ops.Compact

/-!
# Capture Actions Under Compaction

`fsm_compact_states` renumbers the states, their edges, and two of the three tables that are
keyed by state number.  The capture actions are left as they were: every action goes on naming
the old numbers.

That is right as long as no number changes its meaning.  The renumbering lowers numbers and
never raises them, so a set of actions is its own image only if all numbers in it stay: the
states an action mentions, and all states before them, have to be kept.

- `CaptureAction.rename`: an action under a renumbering
- `CapturesCompacted`: what a compaction is to do with the actions
- `fsmCompactStates_captures_iff`: when it does
-/

namespace Libfsm

open Lib

/-! ## §1 Actions Under A Renumbering -/

/-- The state numbers an action mentions. -/
def CaptureAction.Mentions (a : CaptureAction) (s : ℕ) : Prop := a.state = s ∨ a.dest = some s

/-- The action with new state numbers, if all its states are kept. -/
def CaptureAction.rename (remap : ℕ → Option ℕ) (a : CaptureAction) : Option CaptureAction :=
  match remap a.state, a.dest with
  | none, _ => none
  | some s, none => some { a with state := s }
  | some s, some t => (remap t).map fun t => { a with state := s, dest := some t }

/-- The sum of the numbers an action mentions. -/
def CaptureAction.weight (a : CaptureAction) : ℕ := a.state + a.dest.getD 0

/-- The actions of `q` are those of `f` under the renumbering, without the ones that mention
a dropped state, and they mention states of `q` only. -/
structure CapturesCompacted (f q : Fsm) (remap : ℕ → Option ℕ) : Prop where
  image : ∀ a, a ∈ q.captureInfo.buckets ↔
    ∃ a₀ ∈ f.captureInfo.buckets, a₀.rename remap = some a
  inside : ∀ a ∈ q.captureInfo.buckets, ∀ s, a.Mentions s → s < q.statecount

section Rename

variable {remap : ℕ → Option ℕ} {a b : CaptureAction}

/-- An action whose states all keep their numbers stays as it is. -/
theorem CaptureAction.rename_eq_self (h : ∀ s, a.Mentions s → remap s = some s) :
    a.rename remap = some a := by
  obtain ⟨state, type, id, dest⟩ := a
  have hstate : remap state = some state := h state (Or.inl rfl)
  cases dest with
  | none => simp [CaptureAction.rename, hstate]
  | some t =>
    have ht : remap t = some t := h t (Or.inr rfl)
    simp [CaptureAction.rename, hstate, ht]

/-- A renumbering that never raises a number never raises the weight of an action, and keeps
it only if it keeps the numbers. -/
theorem CaptureAction.weight_rename (hle : ∀ {s t}, remap s = some t → t ≤ s)
    (h : a.rename remap = some b) :
    b.weight ≤ a.weight ∧ (b.weight = a.weight → ∀ s, a.Mentions s → remap s = some s) := by
  obtain ⟨state, type, id, dest⟩ := a
  cases hs : remap state with
  | none => simp [CaptureAction.rename, hs] at h
  | some s' =>
    have hs' : s' ≤ state := hle hs
    cases dest with
    | none =>
      simp only [CaptureAction.rename, hs, Option.some.injEq] at h
      subst h
      refine ⟨by simpa [CaptureAction.weight] using hs', fun heq s hmentions => ?_⟩
      obtain rfl : s' = state := by simpa [CaptureAction.weight] using heq
      rcases hmentions with rfl | hdest
      · exact hs
      · cases hdest
    | some t =>
      simp only [CaptureAction.rename, hs, Option.map_eq_some_iff] at h
      obtain ⟨t', ht, rfl⟩ := h
      have ht' : t' ≤ t := hle ht
      refine ⟨by simpa [CaptureAction.weight] using Nat.add_le_add hs' ht', ?_⟩
      intro heq s hmentions
      have heq : s' + t' = state + t := heq
      rcases hmentions with rfl | hdest
      · rw [hs, show s' = state by omega]
      · cases hdest
        rw [ht, show t' = t by omega]

end Rename

/-- A finite set that a partial function maps onto itself, where no image is heavier than its
preimage: every member has an image of its own weight. -/
theorem exists_image_of_surjOn {α : Type*} [DecidableEq α] {S : Finset α} {φ : α → Option α}
    {weight : α → ℕ} (hle : ∀ {a b}, φ a = some b → weight b ≤ weight a)
    (hsurj : ∀ b ∈ S, ∃ a ∈ S, φ a = some b) {a : α} (ha : a ∈ S) :
    ∃ b, φ a = some b ∧ weight b = weight a := by
  -- extended by the identity, `φ` permutes the set
  set ψ : α → α := fun a => (φ a).getD a with hψ
  have hψle : ∀ a, weight (ψ a) ≤ weight a := by
    intro a
    cases h : φ a with
    | none => simp [hψ, h]
    | some b => simpa [hψ, h] using hle h
  have hsub : S ⊆ S.image ψ := by
    intro b hb
    obtain ⟨a, ha, hab⟩ := hsurj b hb
    exact Finset.mem_image.mpr ⟨a, ha, by simp [hψ, hab]⟩
  have himage : S = S.image ψ := Finset.eq_of_subset_of_card_le hsub Finset.card_image_le
  have hinj : Set.InjOn ψ S := Finset.card_image_iff.mp (congrArg Finset.card himage).symm
  -- the weights have the same sum before and after, so each is the same
  have hsum : ∑ a ∈ S, weight (ψ a) = ∑ a ∈ S, weight a := by
    rw [← Finset.sum_image hinj, ← himage]
  have hweight : weight (ψ a) = weight a :=
    (Finset.sum_eq_sum_iff_of_le fun a _ => hψle a).mp hsum a ha
  obtain ⟨a', ha', haa'⟩ := hsurj a ha
  cases h : φ a with
  | some b => exact ⟨b, rfl, by simpa [hψ, h] using hweight⟩
  | none =>
    -- then `ψ` fixes it, so it is its own preimage
    have heq : ψ a' = ψ a := by simp [hψ, haa', h]
    obtain rfl := hinj ha' ha heq
    rw [h] at haa'
    cases haa'

/-! ## §2 Compaction -/

theorem captureInfo_fsmCompactStates (f : Fsm) (filter : ℕ → Bool) :
    (fsmCompactStates f filter).1.captureInfo = f.captureInfo := by
  apply foldl_eq_of_step Fsm.captureInfo
  intro g i _
  split
  · exact captureInfo_fsmSetend g i false
  · rfl

theorem keptBelow_le (filter : ℕ → Bool) (i : ℕ) : keptBelow filter i ≤ i :=
  List.countP_le_length.trans_eq List.length_range

/-- A state keeps its number exactly if it and all states before it are kept. -/
theorem mappingCb_eq_self_iff {filter : ℕ → Bool} {n s : ℕ} :
    mappingCb (compactMapping filter n).1 s = some s ↔ s < n ∧ ∀ i ≤ s, filter i = true := by
  rw [mappingCb_compactMapping]
  have hbelow : keptBelow filter s = s ↔ ∀ i < s, filter i = true := by
    rw [keptBelow]
    have hlen := List.countP_eq_length (p := filter) (l := List.range s)
    simpa using hlen
  constructor
  · intro h
    split at h
    · rename_i hs
      refine ⟨hs.1, fun i hi => ?_⟩
      rcases Nat.lt_or_eq_of_le hi with hlt | rfl
      · exact hbelow.mp (Option.some.inj h) i hlt
      · exact hs.2
    · cases h
  · rintro ⟨hs, hall⟩
    rw [if_pos ⟨hs, hall s le_rfl⟩, hbelow.mpr fun i hi => hall i hi.le]

/-- **Captures survive a compaction** exactly if every state that an action mentions keeps its
number: it is a state of the FSM, and neither it nor any state before it is dropped. -/
theorem fsmCompactStates_captures_iff (f : Fsm) (filter : ℕ → Bool) :
    CapturesCompacted f (fsmCompactStates f filter).1
        (mappingCb (compactMapping filter f.statecount).1) ↔
      ∀ a ∈ f.captureInfo.buckets, ∀ s, a.Mentions s →
        s < f.statecount ∧ ∀ i ≤ s, filter i = true := by
  simp only [← mappingCb_eq_self_iff]
  set remap := mappingCb (compactMapping filter f.statecount).1 with hremap
  have hcapture := captureInfo_fsmCompactStates f filter
  have hle : ∀ {s t}, remap s = some t → t ≤ s := by
    intro s t h
    rw [hremap, mappingCb_compactMapping] at h
    split at h
    · exact Option.some.inj h ▸ keptBelow_le filter s
    · cases h
  constructor
  · intro ⟨himage, _⟩ a ha
    rw [hcapture] at himage
    -- numbers only sink, so if all actions are images, none sinks
    obtain ⟨b, hb, hweight⟩ := exists_image_of_surjOn
      (S := f.captureInfo.buckets.toFinset) (fun h => (CaptureAction.weight_rename hle h).1)
      (fun b hb => by simpa using (himage b).mp (List.mem_toFinset.mp hb))
      (List.mem_toFinset.mpr ha)
    exact (CaptureAction.weight_rename hle hb).2 hweight
  · intro h
    have hself : ∀ a ∈ f.captureInfo.buckets, a.rename remap = some a :=
      fun a ha => CaptureAction.rename_eq_self (h a ha)
    refine ⟨fun a => ?_, fun a ha s hs => ?_⟩
    · rw [hcapture]
      constructor
      · exact fun ha => ⟨a, ha, hself a ha⟩
      · intro ⟨a₀, ha₀, hren⟩
        rw [hself a₀ ha₀] at hren
        exact Option.some.inj hren ▸ ha₀
    · rw [hcapture] at ha
      have hkeeps := mappingCb_eq_self_iff.mp (h a ha s hs)
      have hself := h a ha s hs
      rw [hremap, mappingCb_compactMapping, if_pos ⟨hkeeps.1, hkeeps.2 s le_rfl⟩] at hself
      rw [statecount_fsmCompactStates]
      exact (Option.some.inj hself).symm ▸ keptBelow_lt hkeeps.1 (hkeeps.2 s le_rfl)

/-- Two states, and an action on the second. -/
def secondStateCapture : Fsm :=
  { fsmAddstateBulk fsmNew 2 with
    captureInfo := CaptureInfo.addAction {} ⟨1, .start, 0, none⟩ }

/-- When the first state is dropped the second becomes state 0, the only one, and the action is
still on state 1. -/
theorem fsmCompactStates_strands_capture :
    (fsmCompactStates secondStateCapture fun s => s == 1).1.statecount = 1 ∧
      (fsmCompactStates secondStateCapture fun s => s == 1).1.captureInfo.buckets =
        [⟨1, .start, 0, none⟩] := by
  decide

end Libfsm
