import Libfsm.Lib.Folds
import Mathlib.Tactic

/-!
# Linear Probing

Hash tables with open addressing: a list of buckets, each empty or with one entry.  The
buckets tried for a hash `h` are `h`, `h + 1`, … modulo the size.  Nothing is ever removed.

- `lookup`, `place`, `reserve`: the operations
- `Represents`: the buckets stand for a finite map
- `Represents.lookup_eq`, `Represents.place`, `Represents.reserve`: the operations are those
  of the map
- `Represents.of_keys`, `Represents.build`: entries rewritten in place, tables built afresh
- `Interner`: items stored once each, with a table of their indices
-/

namespace Libfsm.Lib

open Option
open List hiding lookup nil cons replicate set idxOf?_eq_some_iff
open Option hiding none some
open Function

variable {α κ : Type*} {buckets : List (Option α)}

/-! ## §1 Operations -/

/-- The bucket at an index; there is nothing outside of the table. -/
def bucketAt (buckets : List (Option α)) (j : ℕ) : Option α := buckets.getD j none

/-- The `i`-th bucket tried for a hash. -/
def probeSlot (n h i : ℕ) : ℕ := (h + i) % n

/-- Probe for the first bucket that is empty or whose entry passes the test. -/
def probe (buckets : List (Option α)) (h : ℕ) (test : α → Bool) : Option ℕ :=
  ((range buckets.length).find? fun i =>
    (bucketAt buckets (probeSlot buckets.length h i)).all test).map
    (probeSlot buckets.length h)

/-- The entry that passes the test, if there is one before an empty bucket. -/
def lookup (buckets : List (Option α)) (h : ℕ) (test : α → Bool) : Option α :=
  (probe buckets h test).bind (bucketAt buckets)

/-- Put an entry into the first empty bucket. -/
def place (buckets : List (Option α)) (h : ℕ) (e : α) : List (Option α) :=
  match probe buckets h (fun _ => false) with
  | none => buckets
  | some j => buckets.set j (some e)

/-- Put an entry into the first empty bucket, if there is one. -/
def place? (buckets : List (Option α)) (h : ℕ) (e : α) : Option (List (Option α)) :=
  (probe buckets h (fun _ => false)).map fun j => buckets.set j (some e)

/-- Move all entries to a table of `n` buckets. -/
def rehash (hash : α → ℕ) (buckets : List (Option α)) (n : ℕ) : List (Option α) :=
  buckets.foldl
    (fun new b =>
      match b with
      | none => new
      | some e => place new (hash e) e)
    (List.replicate n none)

/-- Move to a table of `n` buckets first if the table counts as full. -/
def reserve (hash : α → ℕ) (buckets : List (Option α)) (full : Prop) [Decidable full] (n : ℕ) :
    List (Option α) :=
  if full then rehash hash buckets n else buckets

/-- All entries, in the order of their buckets. -/
def entries (buckets : List (Option α)) : List α := buckets.filterMap id

/-- The number of entries. -/
def usedBuckets (buckets : List (Option α)) : ℕ := buckets.countP Option.isSome

@[simp] theorem length_place (buckets : List (Option α)) (h : ℕ) (e : α) :
    (place buckets h e).length = buckets.length := by
  unfold place
  split
  · rfl
  · exact length_set

@[simp] theorem length_rehash (hash : α → ℕ) (buckets : List (Option α)) (n : ℕ) :
    (rehash hash buckets n).length = n := by
  refine (foldl_eq_of_step List.length fun new b _ => ?_).trans length_replicate
  cases b with
  | none => rfl
  | some e => exact length_place new (hash e) e

theorem length_reserve (hash : α → ℕ) (buckets : List (Option α)) (full : Prop)
    [Decidable full] (n : ℕ) :
    (reserve hash buckets full n).length = if full then n else buckets.length := by
  unfold reserve
  split
  · exact length_rehash hash buckets n
  · rfl

/-! ## §2 Probing -/

theorem bucketAt_lt {j : ℕ} {e : α} (h : bucketAt buckets j = some e) : j < buckets.length := by
  by_contra hge
  rw [bucketAt, getD_eq_getElem?_getD, getElem?_eq_none (Nat.le_of_not_lt hge)] at h
  cases h

theorem bucketAt_set {j : ℕ} (hj : j < buckets.length) (b : Option α)
    (i : ℕ) : bucketAt (buckets.set j b) i = if i = j then b else bucketAt buckets i := by
  rw [bucketAt, getD_eq_getElem?_getD]
  by_cases hij : i = j
  · rw [if_pos hij, hij, getElem?_set_self hj, getD_some]
  · rw [if_neg hij, getElem?_set_ne (Ne.symm hij), bucketAt, getD_eq_getElem?_getD]

theorem mem_entries {e : α} : e ∈ entries buckets ↔ ∃ j, bucketAt buckets j = some e := by
  unfold entries
  rw [mem_filterMap]
  constructor
  · intro ⟨b, hb, he⟩
    obtain ⟨j, hj⟩ := mem_iff_getElem?.mp hb
    refine ⟨j, ?_⟩
    rw [bucketAt, getD_eq_getElem?_getD, hj]
    exact he
  · intro ⟨j, hj⟩
    have hlt := bucketAt_lt hj
    rw [bucketAt, getD_eq_getElem?_getD, getElem?_eq_getElem hlt] at hj
    exact ⟨buckets[j], getElem_mem hlt, hj⟩

@[simp] theorem length_entries (buckets : List (Option α)) :
    (entries buckets).length = usedBuckets buckets := by
  rw [entries, length_filterMap_eq_countP]
  rfl

theorem probe_eq_some_iff {h j : ℕ} {test : α → Bool} :
    probe buckets h test = some j ↔ ∃ i < buckets.length,
      probeSlot buckets.length h i = j ∧ (bucketAt buckets j).all test = true ∧
      ∀ i' < i, (bucketAt buckets (probeSlot buckets.length h i')).all test = false := by
  unfold probe
  rw [map_eq_some_iff]
  constructor
  · intro ⟨i, hi, hj⟩
    rw [find?_range_eq_some] at hi
    obtain ⟨hall, hmem, hbefore⟩ := hi
    refine ⟨i, mem_range.mp hmem, hj, hj ▸ hall, fun i' hi' => ?_⟩
    simpa using hbefore i' hi'
  · intro ⟨i, hi, hj, hall, hbefore⟩
    refine ⟨i, find?_range_eq_some.mpr ⟨hj ▸ hall, mem_range.mpr hi, ?_⟩, hj⟩
    intro i' hi'
    simpa using hbefore i' hi'

/-- Probing finds a bucket if some bucket on the way qualifies. -/
theorem exists_probe {h i : ℕ} {test : α → Bool} (hi : i < buckets.length)
    (hall : (bucketAt buckets (probeSlot buckets.length h i)).all test = true) :
    ∃ i₀ ≤ i, probe buckets h test = some (probeSlot buckets.length h i₀) ∧
      (bucketAt buckets (probeSlot buckets.length h i₀)).all test = true ∧
      ∀ i' < i₀, (bucketAt buckets (probeSlot buckets.length h i')).all test = false := by
  classical
  have hex : ∃ k, (bucketAt buckets (probeSlot buckets.length h k)).all test = true := ⟨i, hall⟩
  have hle : Nat.find hex ≤ i := Nat.find_min' hex hall
  have hbefore : ∀ i' < Nat.find hex,
      (bucketAt buckets (probeSlot buckets.length h i')).all test = false :=
    fun i' hi' => Bool.not_eq_true _ ▸ Nat.find_min hex hi'
  refine ⟨Nat.find hex, hle, ?_, Nat.find_spec hex, hbefore⟩
  exact probe_eq_some_iff.mpr ⟨Nat.find hex, lt_of_le_of_lt hle hi, rfl, Nat.find_spec hex, hbefore⟩

/-- An empty bucket that is found by some test is the first empty one. -/
theorem probe_of_bucketAt_eq_none {h j : ℕ} {test : α → Bool}
    (hprobe : probe buckets h test = some j) (hempty : bucketAt buckets j = none) :
    probe buckets h (fun _ => false) = some j := by
  obtain ⟨i, hi, hslot, -, hbefore⟩ := probe_eq_some_iff.mp hprobe
  refine probe_eq_some_iff.mpr ⟨i, hi, hslot, by rw [hempty]; rfl, fun i' hi' => ?_⟩
  cases hb : bucketAt buckets (probeSlot buckets.length h i') with
  | none =>
    have hbefore := hbefore i' hi'
    rw [hb] at hbefore
    cases hbefore
  | some e => rfl

/-- Every bucket is tried for every hash. -/
theorem exists_probeSlot_eq {n h j : ℕ} (hj : j < n) : ∃ i < n, probeSlot n h i = j := by
  have hn : 0 < n := Nat.zero_lt_of_lt hj
  refine ⟨(j + (n - h % n)) % n, Nat.mod_lt _ hn, ?_⟩
  have hlt := Nat.mod_lt h hn
  unfold probeSlot
  rw [Nat.add_mod, Nat.mod_mod, ← Nat.add_mod]
  have hdecomp : h + (j + (n - h % n)) = j + n * (h / n + 1) := by
    have := Nat.div_add_mod h n
    rw [mul_add]
    omega
  rw [hdecomp, Nat.add_mul_mod_self_left, Nat.mod_eq_of_lt hj]

theorem exists_bucketAt_eq_none (h : usedBuckets buckets < buckets.length) :
    ∃ j < buckets.length, bucketAt buckets j = none := by
  by_contra hno
  push Not at hno
  have hall : usedBuckets buckets = buckets.length := by
    unfold usedBuckets
    rw [countP_eq_length]
    intro b hb
    obtain ⟨j, hj, rfl⟩ := mem_iff_getElem.mp hb
    have hne := hno j hj
    rw [bucketAt, getD_eq_getElem?_getD, getElem?_eq_getElem hj] at hne
    exact isSome_iff_ne_none.mpr hne
  omega

/-- With room in the table, probing ends. -/
theorem exists_probe_of_room (h : usedBuckets buckets < buckets.length)
    (hash : ℕ) (test : α → Bool) : ∃ j, probe buckets hash test = some j := by
  obtain ⟨j, hj, hempty⟩ := exists_bucketAt_eq_none h
  obtain ⟨i, hi, hslot⟩ := exists_probeSlot_eq (h := hash) hj
  obtain ⟨i₀, -, hprobe, -⟩ :=
    exists_probe hi (show (bucketAt buckets _).all test = true by rw [hslot, hempty]; rfl)
  exact ⟨_, hprobe⟩

/-! ## §3 Tables As Maps -/

/-- The buckets stand for the map `m` from keys to entries: the entry of a key is found by
probing from the key's hash, with no gap before it. -/
structure Represents (key : α → κ) (hash : κ → ℕ) (buckets : List (Option α))
    (m : κ → Option α) : Prop where
  reached : ∀ {j e}, bucketAt buckets j = some e → ∃ i < buckets.length,
    probeSlot buckets.length (hash (key e)) i = j ∧
    ∀ i' < i, (bucketAt buckets (probeSlot buckets.length (hash (key e)) i')).isSome = true
  mem : ∀ {k e}, m k = some e ↔ ∃ j, bucketAt buckets j = some e ∧ key e = k
  unique : ∀ {j j' e e'}, bucketAt buckets j = some e → bucketAt buckets j' = some e' →
    key e = key e' → j = j'

/-- Among entries with different keys, the first with a key is the only one. -/
theorem find?_key_eq_some_iff [DecidableEq κ] {key : α → κ} {es : List α}
    (hkeys : es.Pairwise fun a b => key a ≠ key b) {k : κ} {e : α} :
    es.find? (fun e => key e = k) = some e ↔ e ∈ es ∧ key e = k := by
  constructor
  · intro h
    exact ⟨mem_of_find?_eq_some h, by simpa using find?_some h⟩
  · intro ⟨he, hk⟩
    induction es with
    | nil => cases he
    | cons a es ih =>
      obtain ⟨hne, hkeys'⟩ := pairwise_cons.mp hkeys
      rcases mem_cons.mp he with rfl | he'
      · simp [hk]
      · have hak : key a ≠ k := fun h => hne e he' (h.trans hk.symm)
        simpa [hak] using ih hkeys' he'

namespace Represents

variable [DecidableEq κ] {key : α → κ} {hash : κ → ℕ} {buckets : List (Option α)}
  {m : κ → Option α}

/-- **Lookup** finds what the map has. -/
theorem lookup_eq (h : Represents key hash buckets m) (k : κ) :
    lookup buckets (hash k) (fun e => key e == k) = m k := by
  unfold lookup
  cases hk : m k with
  | none =>
    -- a bucket found by probing is empty: an entry in it would be in the map
    rw [bind_eq_none_iff]
    intro j hj
    obtain ⟨i, -, -, hall, -⟩ := probe_eq_some_iff.mp hj
    cases he : bucketAt buckets j with
    | none => rfl
    | some e =>
      rw [he, all_some, beq_iff_eq] at hall
      have hmem := h.mem.mpr ⟨j, he, hall⟩
      rw [hk] at hmem
      cases hmem
  | some e =>
    obtain ⟨j, hj, rfl⟩ := h.mem.mp hk
    obtain ⟨i, hi, hslot, hfull⟩ := h.reached hj
    have hall : (bucketAt buckets (probeSlot buckets.length (hash (key e)) i)).all
        (fun e' => key e' == key e) = true := by
      rw [hslot, hj]
      simp
    obtain ⟨i₀, hle, hprobe, hall₀, -⟩ := exists_probe hi hall
    rw [hprobe, bind_some]
    rcases Nat.lt_or_eq_of_le hle with hlt | rfl
    · obtain ⟨e', he'⟩ := isSome_iff_exists.mp (hfull i₀ hlt)
      rw [he', all_some, beq_iff_eq] at hall₀
      have hsame := h.unique he' hj hall₀
      rw [hsame, hj]
    · rw [hslot, hj]

omit [DecidableEq κ] in
theorem replicate (key : α → κ) (hash : κ → ℕ) (n : ℕ) :
    Represents key hash (List.replicate n none) (fun _ => none) := by
  have hnone : ∀ j, bucketAt (List.replicate n (none : Option α)) j = none := by
    intro j
    rw [bucketAt, getD_eq_getElem?_getD, getElem?_replicate]
    split <;> rfl
  refine ⟨?_, ?_, ?_⟩
  · intro j e h
    rw [hnone] at h
    cases h
  · simp [hnone]
  · intro j j' e e' h
    rw [hnone] at h
    cases h

omit [DecidableEq κ] in
theorem congr_key (h : Represents key hash buckets m) {g : α → κ}
    (hkey : ∀ {j e}, bucketAt buckets j = some e → g e = key e) :
    Represents g hash buckets m := by
  refine ⟨?_, ?_, ?_⟩
  · intro j e he
    rw [hkey he]
    exact h.reached he
  · intro k e
    rw [h.mem]
    constructor
    · intro ⟨j, he, hk⟩
      exact ⟨j, he, (hkey he).trans hk⟩
    · intro ⟨j, he, hk⟩
      exact ⟨j, he, (hkey he).symm.trans hk⟩
  · intro j j' e e' he he' hk
    rw [hkey he, hkey he'] at hk
    exact h.unique he he' hk

omit [DecidableEq κ] in
theorem eq_some_iff (h : Represents key hash buckets m) {k : κ} {e : α} :
    m k = some e ↔ e ∈ entries buckets ∧ key e = k := by
  rw [h.mem, mem_entries]
  exact ⟨fun ⟨j, hj, hk⟩ => ⟨⟨j, hj⟩, hk⟩, fun ⟨⟨j, hj⟩, hk⟩ => ⟨j, hj, hk⟩⟩

omit [DecidableEq κ] in
theorem entries_pairwise (h : Represents key hash buckets m) :
    (entries buckets).Pairwise fun a b => key a ≠ key b := by
  have hget : ∀ {i : ℕ} (hi : i < buckets.length) {a : α}, buckets[i] = some a →
      bucketAt buckets i = some a := by
    intro i hi a ha
    rw [bucketAt, getD_eq_getElem?_getD, getElem?_eq_getElem hi, ha]
    rfl
  rw [entries, pairwise_filterMap, pairwise_iff_getElem]
  intro i j hi hj hij a ha b hb hk
  exact hij.ne (h.unique (hget hi ha) (hget hj hb) hk)

/-- The map, read off the entries. -/
theorem find?_entries (h : Represents key hash buckets m) :
    (fun k => (entries buckets).find? fun e => key e = k) = m := by
  funext k
  apply Option.ext
  intro e
  rw [find?_key_eq_some_iff h.entries_pairwise, h.eq_some_iff]

/-- **Probing** for a key in a table with room ends at the key's entry, or at the bucket where
it is to be placed. -/
theorem exists_probe_key (h : Represents key hash buckets m)
    (hroom : usedBuckets buckets < buckets.length) (k : κ) :
    ∃ j < buckets.length, probe buckets (hash k) (fun e => key e == k) = some j ∧
      bucketAt buckets j = m k ∧
      (m k = none → ∀ e, Lib.place buckets (hash k) e = buckets.set j (some e)) := by
  obtain ⟨j, hprobe⟩ := exists_probe_of_room hroom (hash k) fun e => key e == k
  have hlookup := h.lookup_eq k
  rw [lookup, hprobe, bind_some] at hlookup
  obtain ⟨i, hi, rfl, -, hbefore⟩ := probe_eq_some_iff.mp hprobe
  refine ⟨probeSlot buckets.length (hash k) i, Nat.mod_lt _ (Nat.zero_lt_of_lt hi), hprobe,
    hlookup, ?_⟩
  intro hnone e
  -- no bucket before this one is empty
  have hfirst : probe buckets (hash k) (fun _ => false) =
      some (probeSlot buckets.length (hash k) i) := by
    refine probe_eq_some_iff.mpr ⟨i, hi, rfl, ?_, fun i' hi' => ?_⟩
    · rw [hlookup, hnone]
      rfl
    · have hfalse := hbefore i' hi'
      cases hb : bucketAt buckets (probeSlot buckets.length (hash k) i') with
      | none => simp [hb] at hfalse
      | some e' => rfl
  rw [Lib.place, hfirst]

omit [DecidableEq κ] in
/-- **Rewriting** entries without changing their keys. -/
theorem of_keys (h : Represents key hash buckets m) {new : List (Option α)}
    (hkeys : new.map (Option.map key) = buckets.map (Option.map key)) (m' : κ → Option α)
    (hm' : ∀ {k e}, m' k = some e ↔ e ∈ entries new ∧ key e = k) :
    Represents key hash new m' ∧ usedBuckets new = usedBuckets buckets := by
  have hlen : new.length = buckets.length := by
    simpa using congrArg List.length hkeys
  have hat : ∀ j, (bucketAt new j).map key = (bucketAt buckets j).map key := by
    intro j
    have hj : (new.map (Option.map key))[j]? = (buckets.map (Option.map key))[j]? := by rw [hkeys]
    rw [bucketAt, bucketAt, getD_eq_getElem?_getD, getD_eq_getElem?_getD]
    cases hn : new[j]? with
    | none =>
      cases hb : buckets[j]? with
      | none => rfl
      | some b => simp [hn, hb] at hj
    | some a =>
      cases hb : buckets[j]? with
      | none => simp [hn, hb] at hj
      | some b => simpa [hn, hb] using hj
  have hsome : ∀ j, (bucketAt new j).isSome = (bucketAt buckets j).isSome := by
    intro j
    simpa using congrArg Option.isSome (hat j)
  -- the old entry in the bucket of a new one
  have hold : ∀ {j e}, bucketAt new j = some e → ∃ e₀, bucketAt buckets j = some e₀ ∧
      key e₀ = key e := by
    intro j e he
    have hj := hat j
    rw [he, map_some, eq_comm, map_eq_some_iff] at hj
    exact hj
  refine ⟨⟨?_, ?_, ?_⟩, ?_⟩
  · intro j e he
    obtain ⟨e₀, he₀, hk⟩ := hold he
    obtain ⟨i, hi, hslot, hfull⟩ := h.reached he₀
    rw [hlen, ← hk]
    exact ⟨i, hi, hslot, fun i' hi' => (hsome _).trans (hfull i' hi')⟩
  · intro k e
    rw [hm', mem_entries]
    exact ⟨fun ⟨⟨j, hj⟩, hk⟩ => ⟨j, hj, hk⟩, fun ⟨j, hj, hk⟩ => ⟨⟨j, hj⟩, hk⟩⟩
  · intro j j' e e' he he' hk
    obtain ⟨a, ha, hka⟩ := hold he
    obtain ⟨a', ha', hka'⟩ := hold he'
    exact h.unique ha ha' (hka.trans (hk.trans hka'.symm))
  · have hcount : ∀ l : List (Option α), usedBuckets l =
        (l.map (Option.map key)).countP Option.isSome := by
      intro l
      rw [countP_map]
      apply countP_congr
      simp
    rw [hcount, hcount, hkeys]

/-- **Replacing** an entry by one with the same key. -/
theorem set (h : Represents key hash buckets m) {j : ℕ} {e₀ e : α}
    (hj : bucketAt buckets j = some e₀) (hkey : key e = key e₀) :
    Represents key hash (buckets.set j (some e)) (Function.update m (key e) (some e)) ∧
      usedBuckets (buckets.set j (some e)) = usedBuckets buckets := by
  have hlt : j < buckets.length := bucketAt_lt hj
  have hget : buckets[j] = some e₀ := by
    rwa [bucketAt, getD_eq_getElem?_getD, getElem?_eq_getElem hlt] at hj
  have hkeys : (buckets.set j (some e)).map (Option.map key) = buckets.map (Option.map key) := by
    rw [map_set, map_some, hkey]
    have hself : (buckets.map (Option.map key))[j]? = some (some (key e₀)) := by
      rw [getElem?_map, getElem?_eq_getElem hlt, hget]
      rfl
    obtain ⟨hlt', hval⟩ := List.getElem?_eq_some_iff.mp hself
    rw [← hval, set_getElem_self]
  refine h.of_keys hkeys _ fun {k e'} => ?_
  rw [mem_entries]
  simp only [bucketAt_set hlt]
  by_cases hk : k = key e
  · rw [hk, update_self]
    constructor
    · intro he
      cases he
      exact ⟨⟨j, if_pos rfl⟩, rfl⟩
    · intro ⟨⟨i, hi⟩, hke⟩
      split at hi
      · exact hi
      · rename_i hij
        exact absurd (h.unique hi hj (hke.trans hkey)) hij
  · rw [update_of_ne hk, h.mem]
    constructor
    · intro ⟨i, hi, hke⟩
      refine ⟨⟨i, ?_⟩, hke⟩
      rw [if_neg]
      · exact hi
      · intro hij
        rw [hij, hj, some.injEq] at hi
        exact hk (hke.symm.trans (hi ▸ hkey.symm))
    · intro ⟨⟨i, hi⟩, hke⟩
      split at hi
      · cases hi
        exact absurd hke.symm hk
      · exact ⟨i, hi, hke⟩

omit [DecidableEq κ] in
/-- Placing fills the first empty bucket that is tried. -/
theorem exists_place (hroom : usedBuckets buckets < buckets.length) (h : ℕ) (e : α) :
    ∃ i < buckets.length,
      Lib.place buckets h e = buckets.set (probeSlot buckets.length h i) (some e) ∧
      bucketAt buckets (probeSlot buckets.length h i) = none ∧
      ∀ i' < i, (bucketAt buckets (probeSlot buckets.length h i')).isSome = true := by
  obtain ⟨j, hprobe⟩ := exists_probe_of_room hroom h fun _ => false
  obtain ⟨i, hi, rfl, hall, hbefore⟩ := probe_eq_some_iff.mp hprobe
  refine ⟨i, hi, by rw [Lib.place, hprobe], ?_, fun i' hi' => ?_⟩
  · cases hb : bucketAt buckets (probeSlot buckets.length h i) with
    | none => rfl
    | some e' =>
      rw [hb] at hall
      cases hall
  · have hfull := hbefore i' hi'
    cases hb : bucketAt buckets (probeSlot buckets.length h i') with
    | none =>
      rw [hb] at hfull
      cases hfull
    | some _ => rfl

omit [DecidableEq κ] in
theorem usedBuckets_set {j : ℕ} (hlt : j < buckets.length) (hnone : bucketAt buckets j = none)
    (e : α) : usedBuckets (buckets.set j (some e)) = usedBuckets buckets + 1 := by
  unfold usedBuckets
  rw [countP_set hlt]
  have hfalse : (buckets[j]).isSome = false := by
    rw [bucketAt, getD_eq_getElem?_getD, getElem?_eq_getElem hlt, getD_some] at hnone
    rw [hnone]
    rfl
  simp [hfalse]

/-- Filling the first empty bucket that is tried for a new key. -/
theorem fill (h : Represents key hash buckets m) {e : α} (hnew : m (key e) = none) {i j : ℕ}
    (hi : i < buckets.length) (hj : probeSlot buckets.length (hash (key e)) i = j)
    (hnone : bucketAt buckets j = none) (hbefore : ∀ i' < i,
      (bucketAt buckets (probeSlot buckets.length (hash (key e)) i')).isSome = true) :
    Represents key hash (buckets.set j (some e)) (Function.update m (key e) (some e)) := by
  have hget : ∀ j', bucketAt (buckets.set j (some e)) j' =
      if j' = j then some e else bucketAt buckets j' :=
    bucketAt_set (hj ▸ Nat.mod_lt _ (Nat.zero_lt_of_lt hi)) (some e)
  -- filled buckets stay filled, so every probe sequence still leads to its entry
  have hkeep : ∀ j', (bucketAt buckets j').isSome = true →
      (bucketAt (buckets.set j (some e)) j').isSome = true := by
    intro j' hsome
    rw [hget]
    split
    · rfl
    · exact hsome
  have hclash : ∀ {j a}, bucketAt buckets j = some a → key a ≠ key e := by
    intro j a ha hk
    have hmem := h.mem.mpr ⟨j, ha, hk⟩
    rw [hnew] at hmem
    cases hmem
  refine ⟨?_, ?_, ?_⟩
  · intro j' e' he'
    rw [length_set]
    rw [hget] at he'
    split at he'
    · rename_i hjj
      cases he'
      exact ⟨i, hi, hj.trans hjj.symm, fun i' hi' => hkeep _ (hbefore i' hi')⟩
    · obtain ⟨i', hi', hslot, hfull⟩ := h.reached he'
      exact ⟨i', hi', hslot, fun i'' hi'' => hkeep _ (hfull i'' hi'')⟩
  · intro k e'
    simp only [hget]
    by_cases hk : k = key e
    · subst hk
      rw [update_self]
      constructor
      · intro he'
        exact ⟨j, by rw [if_pos rfl, he'], by rw [some.inj he']⟩
      · intro ⟨j', he', hk⟩
        split at he'
        · exact he'
        · exact absurd hk (hclash he')
    · rw [update_of_ne hk, h.mem]
      constructor
      · intro ⟨j', he', hke'⟩
        refine ⟨j', ?_, hke'⟩
        rw [if_neg]
        · exact he'
        · rintro rfl
          rw [hnone] at he'
          cases he'
      · intro ⟨j', he', hke'⟩
        split at he'
        · exact absurd (some.inj he' ▸ hke'.symm) hk
        · exact ⟨j', he', hke'⟩
  · intro j₁ j₂ a a' ha ha' hkey
    rw [hget] at ha ha'
    split at ha
    · split at ha'
      · rename_i h₁ h₂
        rw [h₁, h₂]
      · exact absurd (some.inj ha ▸ hkey.symm) (hclash ha')
    · split at ha'
      · exact absurd (some.inj ha' ▸ hkey) (hclash ha)
      · exact h.unique ha ha' hkey

/-- **Placing** an entry with a new key. -/
theorem place (h : Represents key hash buckets m) {e : α} (hnew : m (key e) = none)
    (hroom : usedBuckets buckets < buckets.length) :
    Represents key hash (Lib.place buckets (hash (key e)) e)
        (Function.update m (key e) (some e)) ∧
      (Lib.place buckets (hash (key e)) e).length = buckets.length ∧
      usedBuckets (Lib.place buckets (hash (key e)) e) = usedBuckets buckets + 1 := by
  obtain ⟨i, hi, hplace, hnone, hbefore⟩ := exists_place hroom (hash (key e)) e
  rw [hplace]
  exact ⟨h.fill hnew hi rfl hnone hbefore, length_set,
    usedBuckets_set (Nat.mod_lt _ (Nat.zero_lt_of_lt hi)) hnone e⟩

/-- Helper: placing a list of entries with different keys. -/
private theorem foldl_place (es : List α) (h : Represents key hash buckets m)
    (hnew : ∀ e ∈ es, m (key e) = none) (hkeys : es.Pairwise fun a b => key a ≠ key b)
    (hroom : usedBuckets buckets + es.length ≤ buckets.length) :
    let new := es.foldl (fun new e => Lib.place new (hash (key e)) e) buckets
    Represents key hash new
        (fun k => match es.find? (fun e => key e = k) with
          | some e => some e
          | none => m k) ∧
      new.length = buckets.length ∧ usedBuckets new = usedBuckets buckets + es.length := by
  induction es generalizing buckets m with
  | nil => exact ⟨h, rfl, rfl⟩
  | cons e es ih =>
    obtain ⟨hne, hkeys'⟩ := pairwise_cons.mp hkeys
    rw [length_cons] at hroom
    obtain ⟨hplace, hlen, hused⟩ := h.place (hnew e mem_cons_self) (by omega)
    obtain ⟨hrep, hlen', hused'⟩ := ih hplace
      (by
        intro a ha
        rw [update_of_ne (hne a ha).symm]
        exact hnew a (mem_cons_of_mem e ha))
      hkeys' (by omega)
    refine ⟨?_, hlen'.trans hlen, ?_⟩
    -- no later entry has the key of `e`
    · have hmap : (fun k => match (e :: es).find? (fun a => key a = k) with
          | some a => some a
          | none => m k) =
          fun k => match es.find? (fun a => key a = k) with
          | some a => some a
          | none => Function.update m (key e) (some e) k := by
        funext k
        by_cases hk : key e = k
        · have hnone : es.find? (fun a => decide (key a = k)) = none := by
            rw [find?_eq_none]
            intro a ha
            simpa [hk] using (hne a ha).symm
          simp [hk, hnone]
        · rw [update_of_ne (Ne.symm hk)]
          simp [hk]
      rw [hmap]
      exact hrep
    · rw [length_cons]
      show usedBuckets (es.foldl _ (Lib.place buckets (hash (key e)) e)) = _
      omega

omit [DecidableEq κ] in
private theorem foldl_eq_foldl_filterMap (buckets : List (Option α)) (new : List (Option α))
    (hashOf : α → ℕ) :
    buckets.foldl (fun new b => match b with
      | none => new
      | some e => Lib.place new (hashOf e) e) new =
      (entries buckets).foldl (fun new e => Lib.place new (hashOf e) e) new := by
  induction buckets generalizing new with
  | nil => rfl
  | cons b buckets ih =>
    cases b with
    | none => exact ih new
    | some e => exact ih _

/-- In a table with room there is a bucket for the entry. -/
theorem place?_eq (hroom : usedBuckets buckets < buckets.length)
    (h : ℕ) (e : α) : place? buckets h e = some (Lib.place buckets h e) := by
  obtain ⟨j, hprobe⟩ := exists_probe_of_room hroom h fun _ => false
  rw [place?, Lib.place, hprobe]
  rfl

variable (key hash) in
/-- **Building** a table of `n` buckets from entries with different keys. -/
theorem build (es : List α) (hkeys : es.Pairwise fun a b => key a ≠ key b) {n : ℕ}
    (hn : es.length ≤ n) :
    ∃ new, es.foldlM (fun new e => place? new (hash (key e)) e) (List.replicate n none) =
        some new ∧
      Represents key hash new (fun k => es.find? fun e => key e = k) ∧
      new.length = n ∧ usedBuckets new = es.length := by
  -- with room for all of them no placement fails
  have hfold : ∀ (es : List α) {buckets : List (Option α)} {m : κ → Option α},
      Represents key hash buckets m → (∀ e ∈ es, m (key e) = none) →
      (es.Pairwise fun a b => key a ≠ key b) →
      usedBuckets buckets + es.length ≤ buckets.length →
      es.foldlM (fun new e => place? new (hash (key e)) e) buckets =
        some (es.foldl (fun new e => Lib.place new (hash (key e)) e) buckets) := by
    intro es
    induction es with
    | nil => exact fun _ _ _ _ => rfl
    | cons e es ih =>
      intro buckets m h hnew hkeys hroom
      obtain ⟨hne, hkeys'⟩ := pairwise_cons.mp hkeys
      rw [length_cons] at hroom
      obtain ⟨hplace, hlen, hused⟩ := h.place (hnew e mem_cons_self) (by omega)
      rw [foldlM_cons, place?_eq (by omega)]
      refine ih hplace (fun a ha => ?_) hkeys' (by omega)
      rw [update_of_ne (hne a ha).symm]
      exact hnew a (mem_cons_of_mem e ha)
  have hzero : usedBuckets (List.replicate n (none : Option α)) = 0 := by
    simp [usedBuckets]
  have hempty : Represents key hash (List.replicate n none) fun _ => none :=
    Represents.replicate key hash n
  have hroom : usedBuckets (List.replicate n (none : Option α)) + es.length ≤
      (List.replicate n (none : Option α)).length := by
    rw [length_replicate]
    omega
  obtain ⟨hrep, hlen, hused⟩ := foldl_place es hempty (fun _ _ => rfl) hkeys hroom
  refine ⟨_, hfold es hempty (fun _ _ => rfl) hkeys hroom, ?_, ?_, ?_⟩
  · have hmap : (fun k => match es.find? (fun e => key e = k) with
        | some e => some e
        | none => (none : Option α)) = fun k => es.find? fun e => key e = k := by
      funext k
      cases es.find? (fun e => key e = k) <;> rfl
    rw [hmap] at hrep
    exact hrep
  · rw [hlen, length_replicate]
  · rw [hused, hzero, zero_add]

/-- The entries of a table built from a list. -/
theorem mem_entries_of_find? {es : List α} (hkeys : es.Pairwise fun a b => key a ≠ key b)
    (h : Represents key hash buckets fun k => es.find? fun e => key e = k) {e : α} :
    e ∈ entries buckets ↔ e ∈ es := by
  have hiff := h.eq_some_iff (k := key e) (e := e)
  rw [find?_key_eq_some_iff hkeys] at hiff
  simpa using hiff.symm

/-- **Growing** keeps the map. -/
theorem rehash (h : Represents key hash buckets m) {n : ℕ} (hn : usedBuckets buckets ≤ n) :
    Represents key hash (Lib.rehash (fun e => hash (key e)) buckets n) m ∧
      (Lib.rehash (fun e => hash (key e)) buckets n).length = n ∧
      usedBuckets (Lib.rehash (fun e => hash (key e)) buckets n) = usedBuckets buckets := by
  set es := entries buckets with hes
  have hlen : es.length = usedBuckets buckets := length_entries buckets
  have hzero : usedBuckets (List.replicate n (none : Option α)) = 0 := by
    simp [usedBuckets]
  obtain ⟨hrep, hlen', hused⟩ := foldl_place es (Represents.replicate key hash n)
    (fun _ _ => rfl) h.entries_pairwise (by rw [length_replicate]; omega)
  have hmap : (fun k => match es.find? (fun e => key e = k) with
      | some e => some e
      | none => (none : Option α)) = m := by
    rw [← h.find?_entries]
    funext k
    cases es.find? (fun e => key e = k) <;> rfl
  rw [hmap] at hrep
  unfold Lib.rehash
  rw [foldl_eq_foldl_filterMap]
  refine ⟨hrep, ?_, ?_⟩
  · rw [hlen', length_replicate]
  · rw [hused, hzero, hlen, zero_add]

/-- After reserving there is room for one more entry, if the bounds on both branches say
so. -/
theorem reserve (h : Represents key hash buckets m) {p : Prop} [Decidable p] {n : ℕ}
    (hfull : p → usedBuckets buckets < n)
    (hnot : ¬ p → usedBuckets buckets < buckets.length) :
    Represents key hash (Lib.reserve (fun e => hash (key e)) buckets p n) m ∧
      usedBuckets (Lib.reserve (fun e => hash (key e)) buckets p n) = usedBuckets buckets ∧
      usedBuckets buckets < (Lib.reserve (fun e => hash (key e)) buckets p n).length := by
  unfold Lib.reserve
  split
  · rename_i hf
    obtain ⟨hrep, hlen, hused⟩ := h.rehash (hfull hf).le
    exact ⟨hrep, hused, hlen.symm ▸ hfull hf⟩
  · rename_i hf
    exact ⟨h, rfl, hnot hf⟩

end Represents

/-! ## §4 Interning -/

/-- Items stored once each; the buckets hold their indices. -/
structure Interner (α : Type*) where
  items : List α := []
  buckets : List (Option ℕ)

namespace Interner

variable [DecidableEq α] (hash : α → ℕ)

/-- The index of an item that is stored already. -/
def find (I : Interner α) (a : α) : Option ℕ :=
  lookup I.buckets (hash a) fun id => decide (I.items[id]? = some a)

/-- Store a new item. -/
def add (I : Interner α) (a : α) : Interner α where
  items := I.items ++ [a]
  buckets := place I.buckets (hash a) I.items.length

/-- Make room for one more item. -/
def reserve (I : Interner α) (full : Prop) [Decidable full] (n : ℕ) : Interner α :=
  { I with buckets := Lib.reserve (fun id => (I.items[id]?).elim 0 hash) I.buckets full n }

/-- The buckets hold the index of every item, and no item is stored twice. -/
structure Valid (I : Interner α) : Prop where
  nodup : I.items.Nodup
  used : usedBuckets I.buckets = I.items.length
  table : Represents (fun id => I.items[id]?) (fun o => o.elim 0 hash) I.buckets
    (fun o => o.bind fun a => I.items.idxOf? a)

variable {hash} {I : Interner α}

theorem valid_empty (n : ℕ) : Valid hash { buckets := List.replicate n none } where
  nodup := nodup_nil
  used := by simp [usedBuckets]
  table := by
    have hmap : (fun o : Option α => o.bind fun a => ([] : List α).idxOf? a) = fun _ => none := by
      funext o
      cases o <;> rfl
    rw [hmap]
    exact Represents.replicate _ _ n

theorem idxOf?_eq_some_iff {items : List α} (hnodup : items.Nodup) {a : α} {id : ℕ} :
    items.idxOf? a = some id ↔ items[id]? = some a := by
  rw [List.idxOf?_eq_some_iff]
  constructor
  · intro ⟨hlt, hget, _⟩
    rw [getElem?_eq_getElem hlt]
    exact congrArg some (by simpa using hget)
  · intro hget
    obtain ⟨hlt, hget⟩ := List.getElem?_eq_some_iff.mp hget
    refine ⟨hlt, by simpa using hget, ?_⟩
    intro j hj hcontra
    have heq : items[j] = items[id] := (by simpa using hcontra : items[j] = a).trans hget.symm
    exact absurd (hnodup.getElem_inj_iff.mp heq) hj.ne

theorem Valid.find_eq (h : Valid hash I) (a : α) : I.find hash a = I.items.idxOf? a :=
  h.table.lookup_eq (some a)

theorem Valid.find_eq_some_iff (h : Valid hash I) {a : α} {id : ℕ} :
    I.find hash a = some id ↔ I.items[id]? = some a := by
  rw [h.find_eq, idxOf?_eq_some_iff h.nodup]

theorem Valid.find_eq_none_iff (h : Valid hash I) {a : α} : I.find hash a = none ↔ a ∉ I.items := by
  rw [h.find_eq, idxOf?_eq_none_iff]

omit [DecidableEq α] in
@[simp] theorem items_reserve (I : Interner α) (full : Prop) [Decidable full] (n : ℕ) :
    (I.reserve hash full n).items = I.items := rfl

theorem Valid.reserve (h : Valid hash I) {p : Prop} [Decidable p] {n : ℕ}
    (hfull : p → I.items.length < n) (hnot : ¬ p → I.items.length < I.buckets.length) :
    Valid hash (I.reserve hash p n) ∧
      I.items.length < (I.reserve hash p n).buckets.length := by
  rw [← h.used] at hfull hnot ⊢
  obtain ⟨hrep, hused, hlt⟩ := h.table.reserve hfull hnot
  exact ⟨⟨h.nodup, hused.trans h.used, hrep⟩, hlt⟩

/-- The entries are the indices of all items. -/
theorem Valid.mem_entries (h : Valid hash I) {id : ℕ} :
    id ∈ entries I.buckets ↔ id < I.items.length := by
  rw [Lib.mem_entries]
  constructor
  · intro ⟨j, hj⟩
    have hsome : (I.items[id]?).bind (fun a => I.items.idxOf? a) = some id :=
      h.table.mem.mpr ⟨j, hj, rfl⟩
    obtain ⟨a, ha, -⟩ := bind_eq_some_iff.mp hsome
    exact (List.getElem?_eq_some_iff.mp ha).1
  · intro hid
    have hget : I.items[id]? = some I.items[id] := getElem?_eq_getElem hid
    have hsome : (some I.items[id]).bind (fun a => I.items.idxOf? a) = some id :=
      (idxOf?_eq_some_iff h.nodup).mpr hget
    obtain ⟨j, hj, -⟩ := h.table.mem.mp hsome
    exact ⟨j, hj⟩

theorem Valid.add (h : Valid hash I) {a : α} (ha : a ∉ I.items)
    (hroom : I.items.length < I.buckets.length) :
    Valid hash (I.add hash a) ∧ (I.add hash a).buckets.length = I.buckets.length := by
  -- the items stored so far keep their indices
  have hkey : ∀ {j id}, bucketAt I.buckets j = some id →
      (I.items ++ [a])[id]? = I.items[id]? := by
    intro j id hj
    have hsome : (I.items[id]?).bind (fun b => I.items.idxOf? b) = some id :=
      h.table.mem.mpr ⟨j, hj, rfl⟩
    obtain ⟨b, hb, -⟩ := bind_eq_some_iff.mp hsome
    have hlt := (List.getElem?_eq_some_iff.mp hb).1
    rw [getElem?_append_left hlt]
  have htable := h.table.congr_key (g := fun id => (I.items ++ [a])[id]?) hkey
  have hlast : (I.items ++ [a])[I.items.length]? = some a := by simp
  obtain ⟨hrep, hlen, hused⟩ := htable.place (e := I.items.length)
    (by rw [hlast]; exact idxOf?_eq_none_iff.mpr ha)
    (h.used.symm ▸ hroom)
  rw [hlast] at hrep hlen hused
  have hnodup : (I.items ++ [a]).Nodup := by
    rw [nodup_append]
    refine ⟨h.nodup, nodup_singleton a, ?_⟩
    intro b hb c hc hbc
    rw [hbc, List.mem_singleton.mp hc] at hb
    exact ha hb
  have hmap : Function.update (fun o : Option α => o.bind fun b => I.items.idxOf? b) (some a)
      (some I.items.length) = fun o => o.bind fun b => (I.items ++ [a]).idxOf? b := by
    funext o
    cases o with
    | none => rfl
    | some b =>
      rw [bind_some]
      by_cases hb : b = a
      · subst hb
        rw [update_self]
        exact ((idxOf?_eq_some_iff hnodup).mpr hlast).symm
      · rw [update_of_ne (fun h => hb (some.inj h)), bind_some]
        apply Option.ext
        intro id
        rw [idxOf?_eq_some_iff h.nodup, idxOf?_eq_some_iff hnodup, getElem?_append]
        split
        · exact Iff.rfl
        · rename_i hge
          rw [getElem?_eq_none (not_lt.mp hge)]
          have hne : ∀ k : ℕ, [a][k]? ≠ some b := by
            intro k hk
            exact hb (List.mem_singleton.mp (mem_of_getElem? hk))
          simp [hne]
  rw [hmap] at hrep
  refine ⟨⟨hnodup, ?_, hrep⟩, hlen⟩
  show usedBuckets (place I.buckets (hash a) I.items.length) = (I.items ++ [a]).length
  rw [length_append]
  exact hused.trans (congrArg (· + 1) h.used)

end Interner

end Libfsm.Lib
