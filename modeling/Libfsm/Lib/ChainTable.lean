import Mathlib.Data.List.GetD
import Mathlib.Logic.Function.Basic
import Mathlib.Tactic

/-!
# Hash Tables With Chaining

A list of buckets, each a chain of entries.  An entry is at the index its key has among that
many buckets.  New entries go to the head of their chain, and nothing is ever removed.

- `chainFind`, `chainPush`, `rechain`: searching a chain, adding an entry, moving to a table of
  another size
- `Chained`: the table stands for a finite map
- `Chained.find_eq`, `Chained.push`, `Chained.rechain`: the operations are those of the map
-/

namespace Libfsm.Lib

open List hiding nil cons

variable {κ ν : Type*}

/-! ## §1 Operations -/

/-- The first entry of a chain with the key. -/
def chainFind [DecidableEq κ] (chain : List (κ × ν)) (k : κ) : Option ν :=
  (chain.find? fun e => e.1 = k).map Prod.snd

/-- Put an entry at the head of the chain at index `i`. -/
def chainPush (buckets : List (List (κ × ν))) (i : ℕ) (e : κ × ν) : List (List (κ × ν)) :=
  buckets.modify i (e :: ·)

/-- Move all entries to a table of `n` buckets, chain by chain. -/
def rechain (slot : ℕ → κ → ℕ) (buckets : List (List (κ × ν))) (n : ℕ) :
    List (List (κ × ν)) :=
  buckets.flatten.foldl (fun new e => chainPush new (slot n e.1) e) (replicate n [])

@[simp] theorem length_chainPush (buckets : List (List (κ × ν))) (i : ℕ) (e : κ × ν) :
    (chainPush buckets i e).length = buckets.length := by
  simp [chainPush]

theorem getD_chainPush {buckets : List (List (κ × ν))} {i : ℕ} (hi : i < buckets.length)
    (e : κ × ν) (j : ℕ) :
    (chainPush buckets i e).getD j [] =
      if j = i then e :: buckets.getD j [] else buckets.getD j [] := by
  unfold chainPush
  rw [getD_eq_getElem?_getD, getD_eq_getElem?_getD, getElem?_modify]
  by_cases hij : j = i
  · subst hij
    rw [getElem?_eq_getElem hi]
    simp
  · rw [if_neg hij]
    cases buckets[j]? <;> simp [Ne.symm hij]

theorem getD_replicate_nil (n i : ℕ) :
    (replicate n ([] : List (κ × ν))).getD i [] = [] := by
  rw [getD_eq_getElem?_getD, getElem?_replicate]
  split <;> rfl

/-! ## §2 Tables As Maps -/

/-- The table stands for the map `m`: each entry of the map is in the chain of its key, and
nothing else is in a chain. -/
structure Chained (slot : ℕ → κ → ℕ) (buckets : List (List (κ × ν))) (m : κ → Option ν) :
    Prop where
  pos : 0 < buckets.length
  placed : ∀ {i e}, e ∈ buckets.getD i [] → slot buckets.length e.1 = i
  mem : ∀ {k v}, m k = some v ↔ ∃ i, (k, v) ∈ buckets.getD i []

namespace Chained

variable {slot : ℕ → κ → ℕ} {buckets : List (List (κ × ν))} {m : κ → Option ν}

theorem replicate (slot : ℕ → κ → ℕ) {n : ℕ} (hn : 0 < n) :
    Chained slot (replicate n []) fun _ => (none : Option ν) := by
  refine ⟨by simpa using hn, ?_, ?_⟩
  · intro i e he
    rw [getD_replicate_nil] at he
    cases he
  · intro k v
    refine iff_of_false (Option.some_ne_none v).symm ?_
    intro ⟨i, hi⟩
    rw [getD_replicate_nil] at hi
    exact not_mem_nil hi

/-- **Searching** the chain of a key finds what the map has. -/
theorem find_eq [DecidableEq κ] (h : Chained slot buckets m) (k : κ) :
    chainFind (buckets.getD (slot buckets.length k) []) k = m k := by
  unfold chainFind
  cases hm : m k with
  | none =>
    rw [Option.map_eq_none_iff, find?_eq_none]
    intro e he hk
    obtain rfl : e.1 = k := by simpa using hk
    rw [h.mem.mpr ⟨_, he⟩] at hm
    cases hm
  | some v =>
    obtain ⟨i, hi⟩ := h.mem.mp hm
    have hslot : slot buckets.length k = i := h.placed hi
    rw [hslot]
    -- whatever the search stops at has the key, and so the value
    have hfound : ((buckets.getD i []).find? fun e => e.1 = k).isSome := by
      rw [find?_isSome]
      exact ⟨(k, v), hi, by simp⟩
    obtain ⟨e, he⟩ := Option.isSome_iff_exists.mp hfound
    have hek : e.1 = k := by simpa using find?_some he
    have hev : m k = some e.2 := h.mem.mpr ⟨i, hek ▸ mem_of_find?_eq_some he⟩
    rw [he, Option.map_some, ← hev, hm]

/-- **Adding** an entry with a new key. -/
theorem push [DecidableEq κ] (h : Chained slot buckets m) {k : κ} (hnew : m k = none) (v : ν)
    (hslot : slot buckets.length k < buckets.length) :
    Chained slot (chainPush buckets (slot buckets.length k) (k, v))
      (Function.update m k (some v)) := by
  refine ⟨by simpa using h.pos, ?_, ?_⟩
  · intro i e he
    rw [getD_chainPush hslot] at he
    rw [length_chainPush]
    split at he
    · rename_i hi
      rcases mem_cons.mp he with rfl | he
      · exact hi.symm
      · exact h.placed he
    · exact h.placed he
  · intro k' v'
    simp only [getD_chainPush hslot]
    by_cases hk : k' = k
    · subst hk
      rw [Function.update_self]
      constructor
      · intro hv
        cases hv
        exact ⟨_, by rw [if_pos rfl]; exact mem_cons_self⟩
      · intro ⟨i, hi⟩
        -- an older entry with this key would be in the map
        have hold : ∀ {i}, (k', v') ∉ buckets.getD i [] := by
          intro i hmem
          rw [h.mem.mpr ⟨i, hmem⟩] at hnew
          cases hnew
        split at hi
        · rcases mem_cons.mp hi with heq | hi
          · rw [(Prod.mk.inj heq).2]
          · exact absurd hi hold
        · exact absurd hi hold
    · rw [Function.update_of_ne hk, h.mem]
      apply exists_congr
      intro i
      split
      · rw [mem_cons]
        exact ⟨.inr, fun hmem => hmem.resolve_left fun heq => hk (Prod.mk.inj heq).1⟩
      · rfl

theorem mem_flatten_iff {buckets : List (List (κ × ν))} {e : κ × ν} :
    e ∈ buckets.flatten ↔ ∃ i, e ∈ buckets.getD i [] := by
  rw [mem_flatten]
  constructor
  · intro ⟨chain, hchain, he⟩
    obtain ⟨i, hi, rfl⟩ := mem_iff_getElem.mp hchain
    exact ⟨i, by rwa [getD_eq_getElem _ _ hi]⟩
  · intro ⟨i, he⟩
    rcases lt_or_ge i buckets.length with hi | hi
    · rw [getD_eq_getElem _ _ hi] at he
      exact ⟨_, getElem_mem hi, he⟩
    · rw [getD_eq_default _ _ hi] at he
      cases he

private theorem mem_foldl_chainPush {n : ℕ} (hslot : ∀ k, slot n k < n) (es : List (κ × ν))
    {new : List (List (κ × ν))} (hlen : new.length = n) :
    (es.foldl (fun new e => chainPush new (slot n e.1) e) new).length = n ∧
      ∀ e i, e ∈ (es.foldl (fun new e => chainPush new (slot n e.1) e) new).getD i [] ↔
        e ∈ new.getD i [] ∨ (e ∈ es ∧ slot n e.1 = i) := by
  induction es generalizing new with
  | nil => exact ⟨hlen, fun e i => by simp⟩
  | cons e₀ es ih =>
    have hi : slot n e₀.1 < new.length := hlen.symm ▸ hslot e₀.1
    obtain ⟨ihlen, ih⟩ := ih ((length_chainPush new (slot n e₀.1) e₀).trans hlen)
    refine ⟨ihlen, fun e i => ?_⟩
    rw [foldl_cons, ih, getD_chainPush hi]
    by_cases hii : i = slot n e₀.1
    · subst hii
      rw [if_pos rfl, mem_cons, mem_cons]
      constructor
      · rintro ((rfl | he) | ⟨he, hs⟩)
        · exact .inr ⟨.inl rfl, rfl⟩
        · exact .inl he
        · exact .inr ⟨.inr he, hs⟩
      · rintro (he | ⟨rfl | he, hs⟩)
        · exact .inl (.inr he)
        · exact .inl (.inl rfl)
        · exact .inr ⟨he, hs⟩
    · rw [if_neg hii, mem_cons]
      constructor
      · rintro (he | ⟨he, hs⟩)
        · exact .inl he
        · exact .inr ⟨.inr he, hs⟩
      · rintro (he | ⟨rfl | he, hs⟩)
        · exact .inl he
        · exact absurd hs.symm hii
        · exact .inr ⟨he, hs⟩

/-- **Growing** keeps the map. -/
theorem rechain (h : Chained slot buckets m) {n : ℕ} (hn : 0 < n) (hslot : ∀ k, slot n k < n) :
    Chained slot (Lib.rechain slot buckets n) m ∧ (Lib.rechain slot buckets n).length = n := by
  obtain ⟨hlen, hmem⟩ := mem_foldl_chainPush hslot buckets.flatten
    (length_replicate : (List.replicate n []).length = n)
  have hmem' : ∀ e i, e ∈ (Lib.rechain slot buckets n).getD i [] ↔
      e ∈ buckets.flatten ∧ slot n e.1 = i := by
    intro e i
    rw [Lib.rechain, hmem, getD_replicate_nil]
    simp
  refine ⟨⟨?_, ?_, ?_⟩, hlen⟩
  · rw [Lib.rechain, hlen]
    exact hn
  · intro i e he
    rw [Lib.rechain, hlen]
    exact ((hmem' e i).mp he).2
  · intro k v
    rw [h.mem, ← mem_flatten_iff]
    simp only [hmem']
    exact ⟨fun he => ⟨_, he, rfl⟩, fun ⟨_, he, _⟩ => he⟩

end Chained

end Libfsm.Lib
